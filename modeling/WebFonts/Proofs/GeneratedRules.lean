import WebFonts.Proofs.MarkedValues
import WebFonts.Proofs.Weaving
import WebFonts.Rule.FontFace

/-!
# Generated rules read back

The rule that `Rule.render` writes for some descriptors is read as one `@font-face` rule with these
descriptors as its declarations, wherever it stands (`Sheet.reading_render`), if every value can be
read by itself and cannot be mistaken for the end of its declaration (`Legible`). The values of
generated rules are of this kind, unless a text in them holds a line feed: quoted names, lists of
sources, which are read as the sources that they were written for (`legible_sources`), keywords and
percentages.
-/

namespace WebFonts.Css

open Text (size isBlank trim trimEnd)
open Cursor (Reads)
open Rule (quote)

/-! ### Words -/

/-- Whether a text is an identifier of lower-case letters and hyphens that begins with a letter. -/
def isWord : List Char → Bool
  | [] => false
  | c :: rest => c.isLower && rest.all fun d => d.isLower || d == '-'

section Word

variable {word rest : List Char} {cur next : Cursor}

theorem isNameStart_of_isLower {c : Char} (h : c.isLower = true) : isNameStart c = true := by
  have halpha : c.isAlpha = (c.isUpper || c.isLower) := rfl
  simp [isNameStart, halpha, h]

theorem ne_of_isLower {c d : Char} (h : c.isLower = true) (hd : d.isLower = false) : c ≠ d := by
  rintro rfl
  rw [h] at hd
  cases hd

theorem isLower_iff {c : Char} : c.isLower = true ↔ 'a'.val ≤ c.val ∧ c.val ≤ 'z'.val := by
  rw [← Bool.and_eq_true_iff.trans (and_congr decide_eq_true_iff decide_eq_true_iff)]
  exact Iff.rfl

theorem toLower_of_isLower {c : Char} (h : c.isLower = true) : c.toLower = c := by
  have hrange := isLower_iff.mp h
  unfold Char.toLower
  grind

theorem isWord_cons {c : Char} :
    isWord (c :: rest) = true ↔
      c.isLower = true ∧ ∀ d ∈ rest, d.isLower = true ∨ d = '-' := by
  simp [isWord]

/-- A character of a word. -/
theorem lower_or_hyphen (h : isWord word = true) {c : Char} (hc : c ∈ word) :
    c.isLower = true ∨ c = '-' := by
  cases word with
  | nil => cases hc
  | cons d word =>
    rw [isWord_cons] at h
    rcases List.mem_cons.mp hc with rfl | hc
    · exact .inl h.1
    · exact h.2 c hc

theorem ordinary_of_isLower {c : Char} (h : c.isLower = true) : Ordinary c := by
  intro hmem
  simp only [List.mem_cons, List.not_mem_nil, or_false] at hmem
  rcases hmem with rfl | rfl | rfl | rfl | rfl | rfl | rfl | rfl | rfl | rfl | rfl <;> cases h

theorem ordinary_of_isWord (h : isWord word = true) {c : Char} (hc : c ∈ word) : Ordinary c := by
  rcases lower_or_hyphen h hc with hlower | rfl
  · exact ordinary_of_isLower hlower
  · decide

/-- A word is a name up to where no name goes on. -/
theorem isNameChar_of_isWord (h : isWord word = true) {c : Char} (hc : c ∈ word) :
    isNameChar c = true := by
  rcases lower_or_hyphen h hc with hlower | rfl
  · simp [isNameChar, isNameStart_of_isLower hlower]
  · rfl

theorem identifier?_word (h : isWord word = true) (hrest : (spanName rest).1 = []) (offset : Nat) :
    (Cursor.mk offset (word ++ rest)).identifier? = some (word, ⟨offset + size word, rest⟩) := by
  cases word with
  | nil => cases h
  | cons c word =>
    have hstart := isNameStart_of_isLower (isWord_cons.mp h).1
    refine Cursor.identifier?_of_all hstart (fun d hd => ?_) hrest offset
    exact isNameChar_of_isWord h (List.mem_cons_of_mem c hd)

theorem ne_backslash_of_isWord (h : isWord word = true) : ∀ c ∈ word, c ≠ '\\' := by
  intro c hc
  rcases lower_or_hyphen h hc with hlower | rfl
  · exact ne_of_isLower hlower rfl
  · decide

theorem lower_word (h : isWord word = true) :
    Text.lower (String.ofList word) = String.ofList word := by
  apply String.toList_inj.mp
  rw [Text.lower, String.toList_map, String.toList_ofList]
  refine List.map_congr_left (fun c hc => ?_) |>.trans (List.map_id word)
  rcases lower_or_hyphen h hc with hlower | rfl
  · exact toLower_of_isLower hlower
  · rfl

theorem isCustomProperty_word (h : isWord word = true) :
    isCustomProperty (String.ofList word) = false := by
  cases word with
  | nil => cases h
  | cons c word =>
    have hhyphen : c ≠ '-' := ne_of_isLower (isWord_cons.mp h).1 rfl
    unfold isCustomProperty
    rw [String.toList_ofList]
    split
    · rename_i heq
      exact absurd (List.cons.inj heq).1 hhyphen
    · rfl

/-- A word can be the property of a declaration. -/
theorem Declaration.heading_word (h : isWord word = true) :
    Heading (String.ofList word) (word ++ [':']) := by
  apply Heading.of_read
  have hcolon : (spanName [':']).1 = [] := spanName_gap .nil []
  have hidentifier := identifier?_word h hcolon 0
  have hstar : (Cursor.start (word ++ [':'])).char? '*' = none := by
    rw [Cursor.char?_eq_none_iff]
    cases word with
    | nil => cases h
    | cons c word => exact fun heq => ne_of_isLower (isWord_cons.mp h).1 rfl (Option.some.inj heq)
  unfold readProperty
  rw [hstar]
  dsimp only [Cursor.start]
  rw [hidentifier]
  dsimp only
  rw [List.nil_append, unescape_word (ne_backslash_of_isWord h), isCustomProperty_word h,
    if_neg (by decide), lower_word h, Nat.zero_add]

/-- A word behind `@` names an at-rule. -/
theorem Sheet.named_word (h : isWord word = true) (hrest : (spanName rest).1 = []) (offset : Nat) :
    Named ⟨offset, '@' :: (word ++ rest)⟩ (String.ofList word)
      ⟨offset + size ('@' :: word), rest⟩ := by
  refine ⟨⟨offset + size ['@'], word ++ rest⟩, word, rfl, ?_, ?_⟩
  · rw [identifier?_word h hrest]
    simp only [Text.size_cons, Text.size_nil, Nat.add_zero, Nat.add_assoc]
  · rw [unescape_word (ne_backslash_of_isWord h), lower_word h]

end Word

/-! ### Values -/

/-- A value can be read by itself, and is read as the same value behind a property. -/
structure Legible (value : List Char) (components : List Component) : Prop where
  flows : ∃ lexemes, spell lexemes = value ∧ Flows lexemes
  read : Component.readAll (.start value) = .ok components
  /-- No `!important` ends the value. -/
  unmarked : cutImportant (' ' :: value) = (' ' :: value, false)
  /-- Nothing is read from the blanks at the end of the value. -/
  trimmed : Component.readAll (.start (trimEnd value)) = .ok components

/-- A text that ends neither with a blank nor with a comment ends with a meaningful lexeme. -/
theorem endsMeaningful_of_last {lexemes : List Lexeme} {text rest : List Char} {c : Char}
    (h : Lexes lexemes rest) (hlast : spell lexemes = text ++ [c]) (hblank : isBlank c = false)
    (hslash : c ≠ '/') : EndsMeaningful lexemes := by
  have hne : lexemes ≠ [] := by
    rintro rfl
    simp at hlast
  obtain ⟨front, last, rfl⟩ := (List.eq_nil_or_concat lexemes).resolve_left hne
  rw [List.concat_eq_append] at h hlast ⊢
  refine ⟨front, last, rfl, ?_⟩
  obtain ⟨hbefore, -⟩ := (lexes_append.mp h).2
  have hgetLast : last.text.getLast? = some c := by
    have := congrArg List.getLast? hlast
    rw [spell_append, spell_cons, spell_nil, List.append_nil, List.getLast?_concat,
      List.getLast?_append] at this
    cases hc : last.text.getLast? with
    | none => exact absurd (List.getLast?_eq_none_iff.mp hc) hbefore.text_ne_nil
    | some d => rwa [hc, Option.some_or] at this
  cases hbefore with
  | quoted => rfl
  | comment hclose =>
    rw [Lexeme.text, List.getLast?_cons, List.getLast?_cons, getLast?_of_closeComment? hclose]
      at hgetLast
    exact absurd (Option.some.inj hgetLast).symm hslash
  | escape => rfl
  | backslash => rfl
  | plain =>
    cases hgetLast
    exact hblank

/-- A value is legible if its last character ends neither a comment nor a mark. -/
theorem Legible.of_last {value text : List Char} {components : List Component} {c : Char}
    (hflows : ∃ lexemes, spell lexemes = value ∧ Flows lexemes)
    (hread : Component.readAll (.start value) = .ok components) (hlast : value = text ++ [c])
    (hblank : isBlank c = false) (hslash : c ≠ '/') (hmark : c.toLower ∉ "important".toList) :
    Legible value components := by
  refine ⟨hflows, hread, ?_, ?_⟩
  · obtain ⟨lexemes, rfl, hflows⟩ := hflows
    have hwhole := (Flows.plain (c := ' ') (by decide)).append hflows
    have hspell : spell ([.plain ' '] ++ lexemes) = ' ' :: text ++ [c] := by
      rw [spell_append, hlast]
      rfl
    have hcut := not_important_of_short
      (endsMeaningful_of_last (hwhole.lexes []) hspell hblank hslash) (hwhole.lexes []) hspell hmark
      (by decide +kernel)
    rw [List.append_nil] at hcut
    exact hcut
  · have hgetLast : value.getLast? = some c := by rw [hlast, List.getLast?_concat]
    rwa [trimEnd_of_getLast? hgetLast hblank]

/-- A value is empty, if there is nothing to list. -/
theorem Legible.nil : Legible [] [] := by
  have hread : Component.readAll (.start []) = .ok [] :=
    Component.readAll_eq_ok_iff.mpr ⟨_, .nil _ _, rfl⟩
  exact ⟨⟨[], rfl, .nil⟩, hread, by decide +kernel, hread⟩

/-! ### Rules -/

/-- What a descriptor is read as, apart from spans. -/
def Describes (descriptor : String × String) (declaration : Declaration) : Prop :=
  ∃ components, Component.ofText? descriptor.2 = .ok components ∧
    declaration = ⟨descriptor.1, .components (Component.bareAll components), false, ⟨0, 0⟩⟩

/-- A node is an `@font-face` rule with some descriptors, apart from spans. -/
def IsFontFace (descriptors : List (String × String)) (node : Node) : Prop :=
  ∃ declarations, List.Forall₂ Describes descriptors declarations ∧
    node = .atRule "font-face" "" (some (declarations.map .declaration)) ⟨0, 0⟩

/-- A descriptor as it stands in a rule, with the line feed before it. -/
def descriptorLine (descriptor : String × String) : List Char :=
  ['\n', ' ', ' '] ++ (descriptor.1.toList ++ [':'] ++ ' ' :: descriptor.2.toList) ++ [';']

theorem intercalate_lines {α : Type} (line : α → String) (a : α) (as : List α) :
    "\n" ++ "\n".intercalate ((a :: as).map line) =
      String.join ((a :: as).map fun b => "\n" ++ line b) := by
  induction as generalizing a with
  | nil => simp
  | cons b as ih =>
    have hjoin : String.join ((a :: b :: as).map fun b => "\n" ++ line b) =
        "\n" ++ line a ++ String.join ((b :: as).map fun b => "\n" ++ line b) := by
      rw [List.map_cons, String.join_cons]
    rw [hjoin, ← ih b]
    simp only [List.map_cons, String.intercalate_cons_cons, String.append_assoc]

theorem toList_render {descriptors : List (String × String)} (hne : descriptors ≠ []) :
    (Rule.render descriptors).toList =
      "@font-face ".toList ++ '{' :: (descriptors.flatMap descriptorLine ++ ['\n', '}']) := by
  obtain ⟨first, others, rfl⟩ := List.exists_cons_of_ne_nil hne
  have hrender : Rule.render (first :: others) =
      "@font-face \x7b" ++ ("\n" ++ "\n".intercalate
        ((first :: others).map fun descriptor => s!"  {descriptor.1}: {descriptor.2};")) ++
          "\n\x7d" := by
    simp only [Rule.render, ← String.append_assoc]
    rfl
  have hline (descriptor : String × String) :
      ("\n" ++ s!"  {descriptor.1}: {descriptor.2};").toList = descriptorLine descriptor := by
    simp only [String.toList_append, descriptorLine, toString]
    simp
  rw [hrender, intercalate_lines, String.toList_append, String.toList_append, String.toList_join,
    List.flatMap_map]
  simp only [hline]
  simp

section Reading

variable {name value : String} {components : List Component}

/-- A legible value is read behind a blank at every offset. -/
theorem Legible.readAll_blank {value : List Char} (h : Legible value components) (offset : Nat) :
    ∃ components', Component.readAll ⟨offset, trimEnd (' ' :: value)⟩ = .ok components' ∧
      Component.bareAll components' = Component.bareAll components := by
  rw [trimEnd_cons, if_pos (show isBlank ' ' = true by decide)]
  split
  · next hnil => exact Component.readAll_move (hnil ▸ h.trimmed) offset
  · obtain ⟨components', hread, hbare⟩ := Component.readAll_move h.trimmed (offset + size [' '])
    obtain ⟨last, hreading, hend⟩ := Component.readAll_eq_ok_iff.mp hread
    refine ⟨components', Component.readAll_eq_ok_iff.mpr ⟨last, ?_, hend⟩, hbare⟩
    exact .separator (Cursor.separator?_of_reads (.blank (c := ' ') (by decide)) ⟨rfl, rfl⟩)
      hreading

theorem Legible.ofStatement? {value : List Char} {word : List Char} (h : Legible value components)
    (hword : isWord word = true) (offset : Nat) :
    ∃ declaration, Declaration.ofStatement? ⟨offset, word ++ [':'] ++ ' ' :: value⟩ =
        .ok declaration ∧
      declaration.bare =
        ⟨String.ofList word, .components (Component.bareAll components), false, ⟨0, 0⟩⟩ := by
  obtain ⟨components', hread, hbare⟩ := h.readAll_blank (offset + size (word ++ [':']))
  have hvalue : Declaration.readValue (String.ofList word)
      ⟨offset + size (word ++ [':']), ' ' :: value⟩ (cutImportant (' ' :: value)).1 =
        .ok (.components components') := by
    unfold Declaration.readValue
    rw [h.unmarked, isCustomProperty_word hword, if_neg (by decide), hread]
    rfl
  refine ⟨_, Declaration.ofStatement?_of_heading (Declaration.heading_word hword) hvalue, ?_⟩
  have hbare' := Value.bare_components components'
  unfold Value.bare at hbare'
  rw [Declaration.bare, Declaration.splice, hbare', hbare, h.unmarked]

theorem Legible.flows_statement {value word : List Char} (h : Legible value components)
    (hword : isWord word = true) :
    ∃ lexemes, spell lexemes = word ++ [':'] ++ ' ' :: value ∧ Flows lexemes := by
  obtain ⟨lexemes, hspell, hflows⟩ := h.flows
  refine ⟨word.map Lexeme.plain ++ ([.plain ':'] ++ ([.plain ' '] ++ lexemes)), ?_,
    (Flows.of_ordinary fun _ => ordinary_of_isWord hword).append
      ((Flows.plain (by decide)).append ((Flows.plain (by decide)).append hflows))⟩
  simp [spell_plain, hspell, Lexeme.text]

theorem Sheet.begins_of_isLower {c : Char} (h : c.isLower = true) (offset : Nat)
    (text : List Char) : Begins .declarations ⟨offset, c :: text⟩ := by
  have hblank : c.isWhitespace = false := by
    simp only [Char.isWhitespace, Bool.or_eq_false_iff, decide_eq_false_iff_not]
    exact ⟨⟨⟨ne_of_isLower h rfl, ne_of_isLower h rfl⟩, ne_of_isLower h rfl⟩, ne_of_isLower h rfl⟩
  exact .declarations (atToken_of_ne hblank (ne_of_isLower h rfl)) (ne_of_isLower h rfl)
    (ne_of_isLower h rfl) offset

/-- The statement of a descriptor is read with the semicolon behind it. -/
theorem Sheet.reading_statement {value word : List Char} (hword : isWord word = true)
    (hvalue : Legible value components) (offset : Nat) (rest : List Char) :
    ∃ node, Reading .declarations ⟨offset, word ++ [':'] ++ ' ' :: value ++ ';' :: rest⟩ [node]
        ⟨offset + size (word ++ [':'] ++ ' ' :: value) + size [';'], rest⟩ ∧
      node.bare = .declaration
        ⟨String.ofList word, .components (Component.bareAll components), false, ⟨0, 0⟩⟩ := by
  obtain ⟨declaration, hread, hbare⟩ := hvalue.ofStatement? hword offset
  obtain ⟨lexemes, hspell, hflows⟩ := hvalue.flows_statement hword
  have hupTo : (Cursor.mk offset (word ++ [':'] ++ ' ' :: value ++ ';' :: rest)).upTo stops 0 =
      .ok (word ++ [':'] ++ ' ' :: value,
        ⟨offset + size (word ++ [':'] ++ ' ' :: value), ';' :: rest⟩) :=
    (Cursor.upTo_eq_ok_iff plain_stops).mpr ⟨⟨rfl, rfl⟩, lexemes, hspell.symm, hflows.lexes _,
      hflows.passes 0, .inr ⟨hflows.balanced 0, ';', by decide, rfl⟩⟩
  obtain ⟨c, tail, rfl⟩ : ∃ c tail, word = c :: tail := by
    cases word with
    | nil => cases hword
    | cons c tail => exact ⟨c, tail, rfl⟩
  have hlower : c.isLower = true := (isWord_cons.mp hword).1
  have hat : (c :: tail ++ [':'] ++ ' ' :: value).head? ≠ some '@' :=
    fun heq => ne_of_isLower hlower rfl (Option.some.inj heq)
  refine ⟨.declaration declaration, .leaf (begins_of_isLower hlower offset _)
    (.declaration hupTo (by simp) hat hread) (.semicolon ⟨rfl, rfl⟩ (.nil _ _)), ?_⟩
  unfold Declaration.bare at hbare
  rw [Node.bare, Node.splice, hbare]

/-- A descriptor is read in front of every text. -/
theorem Sheet.reading_descriptor (hname : isWord name.toList = true)
    (hvalue : Legible value.toList components) (offset : Nat) (rest : List Char) :
    ∃ node, Reading .declarations ⟨offset, descriptorLine (name, value) ++ rest⟩ [node]
        ⟨offset + size (descriptorLine (name, value)), rest⟩ ∧
      node.bare =
        .declaration ⟨name, .components (Component.bareAll components), false, ⟨0, 0⟩⟩ := by
  obtain ⟨node, hreading, hbare⟩ :=
    reading_statement hname hvalue (offset + size ['\n'] + size [' '] + size [' ']) rest
  rw [String.ofList_toList] at hbare
  have hblank {c : Char} (hc : c.isWhitespace = true) (offset : Nat) (text : List Char) :
      (Cursor.mk offset (c :: text)).separator? = .ok (some ⟨offset + size [c], text⟩) :=
    Cursor.separator?_of_reads (.blank hc) ⟨rfl, rfl⟩
  have hline : descriptorLine (name, value) ++ rest =
      '\n' :: ' ' :: ' ' :: (name.toList ++ [':'] ++ ' ' :: value.toList ++ ';' :: rest) := by
    simp [descriptorLine]
  have hsize : offset + size (descriptorLine (name, value)) =
      offset + size ['\n'] + size [' '] + size [' '] +
        size (name.toList ++ [':'] ++ ' ' :: value.toList) + size [';'] := by
    simp only [descriptorLine, Text.size_append, Text.size_cons, Text.size_nil]
    omega
  rw [hline, hsize]
  exact ⟨node, .separator (hblank (by decide) _ _) (.separator (hblank (by decide) _ _)
    (.separator (hblank (by decide) _ _) hreading)), hbare⟩

/-- Descriptors whose values can be read. -/
def Readable (descriptors : List (String × String)) : Prop :=
  ∀ descriptor ∈ descriptors, isWord descriptor.1.toList = true ∧
    ∃ components, Legible descriptor.2.toList components

theorem Readable.nil : Readable [] :=
  nofun

theorem Readable.cons {descriptors : List (String × String)} (hname : isWord name.toList = true)
    (hvalue : ∃ components, Legible value.toList components) (h : Readable descriptors) :
    Readable ((name, value) :: descriptors) := by
  rintro descriptor (_ | ⟨_, hmem⟩)
  · exact ⟨hname, hvalue⟩
  · exact h descriptor hmem

/-- Descriptors are read in front of every text. -/
theorem Sheet.reading_descriptors {descriptors : List (String × String)}
    (h : Readable descriptors) (offset : Nat) (rest : List Char) :
    ∃ nodes declarations, Reading .declarations
        ⟨offset, descriptors.flatMap descriptorLine ++ rest⟩ nodes
        ⟨offset + size (descriptors.flatMap descriptorLine), rest⟩ ∧
      List.Forall₂ Describes descriptors declarations ∧
      bareIn nodes = declarations.map .declaration := by
  induction descriptors generalizing offset with
  | nil => exact ⟨[], [], .nil _ _, .nil, rfl⟩
  | cons descriptor descriptors ih =>
    obtain ⟨hname, components, hvalue⟩ := h descriptor (List.mem_cons_self ..)
    obtain ⟨node, hreading, hbare⟩ := reading_descriptor hname hvalue offset
      (descriptors.flatMap descriptorLine ++ rest)
    obtain ⟨nodes, declarations, hothers, hdescribes, hbareOthers⟩ := ih
      (fun other hmem => h other (List.mem_cons_of_mem _ hmem))
      (offset + size (descriptorLine descriptor))
    refine ⟨node :: nodes, _ :: declarations, ?_, .cons ⟨components, hvalue.read, rfl⟩ hdescribes,
      ?_⟩
    · rw [List.flatMap_cons, List.append_assoc, Text.size_append, ← Nat.add_assoc]
      exact hreading.append hothers
    · unfold Node.bare at hbare
      unfold bareIn at hbareOthers ⊢
      rw [spliceIn, hbare, hbareOthers]
      rfl

/-- A rule with readable descriptors is read in front of every text. -/
theorem Sheet.reading_render {descriptors : List (String × String)} (hne : descriptors ≠ [])
    (h : Readable descriptors) (offset : Nat) (rest : List Char) :
    ∃ node, Reading .top ⟨offset, (Rule.render descriptors).toList ++ rest⟩ [node]
        ⟨offset + size (Rule.render descriptors).toList, rest⟩ ∧
      IsFontFace descriptors node.bare := by
  generalize hlines : descriptors.flatMap descriptorLine = lines
  have hword : isWord "font-face".toList = true := by decide +kernel
  have hfront : "@font-face ".toList = '@' :: "font-face".toList ++ [' '] := by decide +kernel
  have hplace : (Head.atRule "font-face" "").place = .declarations := by decide +kernel
  generalize hinside : offset + size ('@' :: "font-face".toList) + size [' '] + size ['{'] = inside
  obtain ⟨nodes, declarations, hreading, hdescribes, hbare⟩ :=
    reading_descriptors h inside ('\n' :: '}' :: rest)
  rw [hlines] at hreading
  have hinner : Reading .declarations ⟨inside, lines ++ '\n' :: '}' :: rest⟩ nodes
      ⟨inside + size lines + size ['\n'], '}' :: rest⟩ := by
    have hbreak : Reading .declarations ⟨inside + size lines, '\n' :: '}' :: rest⟩ []
        ⟨inside + size lines + size ['\n'], '}' :: rest⟩ :=
      .separator (Cursor.separator?_of_reads (.blank (c := '\n') (by decide)) ⟨rfl, rfl⟩) (.nil _ _)
    have hall := hreading.append hbreak
    rwa [List.append_nil] at hall
  have hprelude : (Cursor.mk (offset + size ('@' :: "font-face".toList))
      (' ' :: '{' :: (lines ++ '\n' :: '}' :: rest))).upTo stops 0 =
        .ok ([' '], ⟨offset + size ('@' :: "font-face".toList) + size [' '],
          '{' :: (lines ++ '\n' :: '}' :: rest)⟩) :=
    (Cursor.upTo_eq_ok_iff plain_stops).mpr ⟨⟨rfl, rfl⟩, [.plain ' '], rfl,
      (Flows.plain (by decide)).lexes _, (Flows.plain (by decide)).passes 0,
      .inr ⟨rfl, '{', by decide, rfl⟩⟩
  have hblank : (spanName (' ' :: '{' :: (lines ++ '\n' :: '}' :: rest))).1 = [] := rfl
  have hname := named_word hword hblank offset
  have hbrace : Reads ⟨offset + size ('@' :: "font-face".toList) + size [' '],
      '{' :: (lines ++ '\n' :: '}' :: rest)⟩ ['{'] ⟨inside, lines ++ '\n' :: '}' :: rest⟩ :=
    ⟨rfl, hinside.symm⟩
  have hopens := Opens.atRule hname hprelude hbrace
  have hbegins : Begins .top ⟨offset, '@' :: ("font-face".toList ++
      ' ' :: '{' :: (lines ++ '\n' :: '}' :: rest))⟩ :=
    ⟨atToken_of_ne (by decide) (by decide), nofun, nofun, nofun, fun _ => rfl⟩
  have htext : (Rule.render descriptors).toList ++ rest = '@' :: ("font-face".toList ++
      ' ' :: '{' :: (lines ++ '\n' :: '}' :: rest)) := by
    rw [toList_render hne, hlines, hfront]
    simp only [List.cons_append, List.append_assoc, List.nil_append]
  have hsize : offset + size (Rule.render descriptors).toList =
      inside + size lines + size ['\n'] + size ['}'] := by
    rw [toList_render hne, hlines, hfront, ← hinside]
    simp only [Text.size_append, Text.size_cons, Text.size_nil]
    omega
  rw [htext, hsize]
  refine ⟨_, .block rfl hbegins hopens (hplace ▸ hinner) ⟨rfl, rfl⟩ (.nil _ _), declarations,
    hdescribes, ?_⟩
  unfold bareIn at hbare
  rw [Head.node, Node.bare, Node.splice, hbare, String.ofList_toList]
  rfl

end Reading

/-! ### Keywords, ranges and percentages -/

/-- Whether a character is a letter, a digit, a space or one of the signs `+`, `-`, `.`, `,`, `?`
and `%`. -/
def isBland (c : Char) : Bool :=
  c.isAlphanum || [' ', '+', '-', '.', ',', '?', '%'].contains c

theorem ne_of_isBland {c d : Char} (h : isBland c = true) (hd : isBland d = false) : c ≠ d := by
  rintro rfl
  rw [h] at hd
  cases hd

theorem ordinary_of_isBland {c : Char} (h : isBland c = true) : Ordinary c := by
  intro hmem
  simp only [List.mem_cons, List.not_mem_nil, or_false] at hmem
  rcases hmem with rfl | rfl | rfl | rfl | rfl | rfl | rfl | rfl | rfl | rfl | rfl <;> cases h

theorem isQuote_of_isBland {c : Char} (h : isBland c = true) : isQuote c = false := by
  simp [isQuote, ne_of_isBland h (d := '"') rfl, ne_of_isBland h (d := '\'') rfl]

/-- Letters and digits lie between `0` and `z`. -/
theorem range_of_isAlphanum {c : Char} (h : c.isAlphanum = true) :
    48 ≤ c.toNat ∧ c.toNat ≤ 122 := by
  have hbetween {least greatest : UInt32} (h : least ≤ c.val ∧ c.val ≤ greatest) :
      least.toNat ≤ c.toNat ∧ c.toNat ≤ greatest.toNat :=
    ⟨UInt32.le_iff_toNat_le.mp h.1, UInt32.le_iff_toNat_le.mp h.2⟩
  have hkind : (c.isUpper || c.isLower || c.isDigit) = true := h
  rw [Bool.or_eq_true, Bool.or_eq_true] at hkind
  rcases hkind with (hupper | hlower) | hdigit
  · obtain ⟨hleast, hgreatest⟩ := hbetween (of_decide_eq_true hupper)
    exact ⟨le_trans (by decide) hleast, le_trans hgreatest (by decide)⟩
  · obtain ⟨hleast, hgreatest⟩ := hbetween (isLower_iff.mp hlower)
    exact ⟨le_trans (by decide) hleast, le_trans hgreatest (by decide)⟩
  · simp only [Char.isDigit, Bool.and_eq_true, decide_eq_true_eq] at hdigit
    obtain ⟨hleast, hgreatest⟩ := hbetween hdigit
    exact ⟨le_trans (by decide) hleast, le_trans hgreatest (by decide)⟩

/-- Of the blanks only the space is bland, and it separates tokens. -/
theorem isWhitespace_of_isBland {c : Char} (h : isBland c = true) (hblank : isBlank c = true) :
    c.isWhitespace = true := by
  rw [isBland, Bool.or_eq_true, List.contains_iff_mem] at h
  rcases h with halphanum | hmem
  · obtain ⟨hleast, hgreatest⟩ := range_of_isAlphanum halphanum
    simp only [isBlank, Bool.or_eq_true, Bool.and_eq_true, decide_eq_true_eq, beq_iff_eq] at hblank
    omega
  · simp only [List.mem_cons, List.not_mem_nil, or_false] at hmem
    rcases hmem with rfl | rfl | rfl | rfl | rfl | rfl | rfl
    · rfl
    all_goals cases hblank

/-- Bland text is read as tokens. -/
theorem Cursor.piece?_of_isBland {cur : Cursor} (hne : cur.rest ≠ [])
    (h : ∀ c ∈ cur.rest, isBland c = true) :
    ∃ leaf next, cur.piece? = .ok (some (.token leaf, next)) := by
  obtain ⟨c, rest, hrest⟩ := List.exists_cons_of_ne_nil hne
  have hc : isBland c = true := h c (hrest ▸ List.mem_cons_self ..)
  unfold piece?
  rw [hrest]
  dsimp only
  rw [isQuote_of_isBland hc, if_neg (by decide)]
  split
  · exact ⟨_, _, rfl⟩
  · exact absurd hc (by decide)
  · exact absurd hc (by decide)
  · exact absurd hc (by decide)
  · unfold otherPiece
    split
    · exact ⟨_, _, rfl⟩
    · split
      · exact ⟨_, _, rfl⟩
      · split
        · rename_i name next hname
          have hparen : next.char? '(' = none := by
            rw [char?_eq_none_iff]
            intro hhead
            have hmem : '(' ∈ cur.rest := by
              rw [(reads_identifier? hname).1.rest_eq]
              exact List.mem_append_right _ (List.mem_of_head? hhead)
            exact absurd (h '(' hmem) (by decide)
          rw [word, hparen]
          exact ⟨_, _, rfl⟩
        · exact ⟨_, _, rfl⟩

theorem Component.readAll_of_isBland {text : List Char} (h : ∀ c ∈ text, isBland c = true)
    (offset : Nat) : ∃ components, readAll ⟨offset, text⟩ = .ok components := by
  suffices ∃ components last, Reading false ⟨offset, text⟩ components last ∧ last.rest = [] by
    obtain ⟨components, last, hreading, hend⟩ := this
    exact ⟨components, readAll_eq_ok_iff.mpr ⟨last, hreading, hend⟩⟩
  -- by induction on the length, since a token can take several characters
  induction hlength : text.length using Nat.strong_induction_on generalizing text offset with
  | _ n ih =>
    cases text with
    | nil => exact ⟨[], _, .nil _ _, rfl⟩
    | cons c rest =>
      obtain ⟨hc, hothers⟩ := List.forall_mem_cons.mp h
      cases hblank : c.isWhitespace with
      | true =>
        have hlt : rest.length < n := by simp [← hlength]
        obtain ⟨components, last, hreading, hend⟩ := ih _ hlt hothers (offset + size [c]) rfl
        exact ⟨components, last,
          .separator (Cursor.separator?_of_reads (.blank hblank) ⟨rfl, rfl⟩) hreading, hend⟩
      | false =>
        have hbland : ∀ d ∈ (Cursor.mk offset (c :: rest)).rest, isBland d = true := h
        obtain ⟨leaf, next, hpiece⟩ := Cursor.piece?_of_isBland (List.cons_ne_nil c rest) hbland
        obtain ⟨taken, hreads, -⟩ := Cursor.reads_piece? hpiece
        have hlt := Cursor.length_lt_of_piece? hpiece
        have hnext : ∀ d ∈ next.rest, isBland d = true :=
          fun d hmem => hbland d (hreads.rest_eq ▸ List.mem_append_right _ hmem)
        obtain ⟨components, last, hreading, hend⟩ := ih _ (hlength ▸ hlt) hnext next.offset rfl
        have htoken : AtToken (c :: rest) := atToken_of_ne hblank (ne_of_isBland hc rfl)
        exact ⟨_, last, .token htoken hpiece hreading, hend⟩

/-- Nothing is read from the separators behind a value that ends with no lone backslash. -/
theorem Component.readAll_append_blanks {text blanks : List Char} {components : List Component}
    (h : readAll (.start text) = .ok components) (hescape : '\\' ∉ text)
    (hblanks : ∀ c ∈ blanks, c.isWhitespace = true) :
    readAll (.start (text ++ blanks)) = .ok components := by
  obtain ⟨last, hreading, hend⟩ := readAll_eq_ok_iff.mp h
  have hgap := Trivia.of_whitespace hblanks
  have hparted : Parted blanks := List.append_nil blanks ▸ hgap.parted .ended
  obtain ⟨taken, components', hreads, -, hsame, hreading'⟩ :=
    hreading.recut (.parted hparted fun hends => hescape (hreading.mem_of_endsLone hends)) 0
  obtain rfl := hsame rfl
  have htaken : text = taken := by
    have hrest := hreads.rest_eq
    rwa [hend, List.append_nil] at hrest
  subst htaken
  have hbehind : Reading false ⟨0 + size text, blanks⟩ [] ⟨0 + size text + size blanks, []⟩ :=
    .of_trivia hgap ⟨(List.append_nil _).symm, rfl⟩ (.nil _ _)
  have hall := hreading'.append hbehind
  rw [List.append_nil] at hall
  exact readAll_eq_ok_iff.mpr ⟨_, hall, rfl⟩

/-- Bland text is legible, whatever blanks stand around it. -/
theorem legible_of_isBland {text : List Char} (h : ∀ c ∈ text, isBland c = true) :
    ∃ components, Legible text components := by
  obtain ⟨blanks, hsplit, hblanks⟩ := Text.trimEnd_append text
  have hkept : ∀ c ∈ trimEnd text, isBland c = true :=
    fun c hmem => h c (hsplit ▸ List.mem_append_left _ hmem)
  have hwhite : ∀ c ∈ blanks, c.isWhitespace = true := fun c hmem =>
    isWhitespace_of_isBland (h c (hsplit ▸ List.mem_append_right _ hmem))
      (List.all_eq_true.mp hblanks c hmem)
  obtain ⟨components, hread⟩ := Component.readAll_of_isBland hkept 0
  have hescape : '\\' ∉ trimEnd text := fun hmem => absurd (hkept _ hmem) (by decide)
  have hall := Component.readAll_append_blanks hread hescape hwhite
  rw [hsplit] at hall
  have hmark : '!' ∉ ' ' :: text := by
    intro hmem
    rcases List.mem_cons.mp hmem with heq | hmem
    · cases heq
    · exact absurd (h _ hmem) (by decide)
  have hplain : Plain (' ' :: text) := by
    refine List.forall_mem_cons.mpr ⟨by decide, fun c hmem => ?_⟩
    have hc := h c hmem
    exact ⟨ne_of_isBland hc rfl, ne_of_isBland hc rfl, isQuote_of_isBland hc⟩
  have hflows := Flows.of_ordinary fun c hmem => ordinary_of_isBland (h c hmem)
  exact ⟨components, ⟨_, spell_plain text, hflows⟩, hall,
    (Unmarked.of_plain hplain hmark).cutImportant, hread⟩

/-- The keyword that every plain face has as its display. -/
theorem legible_swap : ∃ components, Legible "swap".toList components :=
  legible_of_isBland (List.all_eq_true.mp (by decide +kernel))

theorem isBland_of_isDigit {c : Char} (h : c.isDigit = true) : isBland c = true := by
  simp [isBland, Char.isAlphanum, h]

theorem isBland_digitsOf {n : Nat} {c : Char} (h : c ∈ Decimal.digitsOf n) : isBland c = true :=
  isBland_of_isDigit (Nat.isDigit_of_mem_toDigits (by decide) (by decide) h)

theorem isBland_plain {digits : Nat} {exponent : Int} {c : Char}
    (h : c ∈ (Decimal.plain digits exponent).toList) : isBland c = true := by
  unfold Decimal.plain at h
  split at h
  · rw [String.toList_ofList] at h
    exact isBland_digitsOf h
  · dsimp only at h
    rw [String.toList_ofList] at h
    split at h
    · exact isBland_digitsOf h
    · rcases List.mem_append.mp h with h | h
      · exact isBland_digitsOf h
      · rcases List.mem_cons.mp h with rfl | h
        · rfl
        · rw [Decimal.dropTrailingZeros, List.mem_reverse] at h
          have hmem := List.mem_reverse.mp ((List.dropWhile_suffix _).mem h)
          rw [Decimal.padded] at hmem
          rcases List.mem_append.mp hmem with hmem | hmem
          · obtain ⟨-, rfl⟩ := List.mem_replicate.mp hmem
            rfl
          · exact isBland_digitsOf hmem

theorem isBland_atMostPlaces {places : Nat} {x : Float} {c : Char}
    (h : c ∈ (Decimal.atMostPlaces places x).toList) : isBland c = true := by
  have hsign {condition : Bool} {d : Char}
      (h : d ∈ (if condition then "-" else "").toList) : isBland d = true := by
    split at h
    · obtain rfl : d = '-' := by simpa using h
      rfl
    · simp at h
  unfold Decimal.atMostPlaces at h
  dsimp only at h
  split at h
  · have hnan : ∀ d ∈ "NaN".toList, isBland d = true := List.all_eq_true.mp (by decide +kernel)
    exact hnan c h
  · rw [String.toList_append] at h
    rcases List.mem_append.mp h with h | h
    · exact hsign h
    · have hinfinite : ∀ d ∈ "inf".toList, isBland d = true :=
        List.all_eq_true.mp (by decide +kernel)
      exact hinfinite c h
  · rw [String.toList_append] at h
    rcases List.mem_append.mp h with h | h
    · split at h
      · simp at h
      · exact hsign h
    · exact isBland_plain h

/-- A percentage is legible, whatever number it is written for. -/
theorem legible_percent (ratio : Float) :
    ∃ components, Legible (percent ratio).toList components := by
  have hbland : ∀ c ∈ (percent ratio).toList, isBland c = true := by
    intro c hmem
    rw [percent, String.toList_append] at hmem
    rcases List.mem_append.mp hmem with hmem | hmem
    · exact isBland_atMostPlaces hmem
    · obtain rfl : c = '%' := by simpa using hmem
      rfl
  exact legible_of_isBland hbland

/-! ### Names and sources -/

/-- A text is read as some components in front of every text, apart from spans, and ends no
statement. -/
structure Fluent (text : List Char) (parts : List Component) : Prop where
  flows : ∃ lexemes, spell lexemes = text ∧ Flows lexemes
  read : ∀ offset rest, ∃ components, Component.Reading false ⟨offset, text ++ rest⟩ components
    ⟨offset + size text, rest⟩ ∧ Component.bareAll components = parts

namespace Fluent

theorem append {front back : List Char} {parts parts' : List Component}
    (hfront : Fluent front parts) (hback : Fluent back parts') :
    Fluent (front ++ back) (parts ++ parts') := by
  obtain ⟨lexemes, hspell, hflows⟩ := hfront.flows
  obtain ⟨others, hspellOthers, hflowsOthers⟩ := hback.flows
  refine ⟨⟨lexemes ++ others, by rw [spell_append, hspell, hspellOthers],
      hflows.append hflowsOthers⟩,
    fun offset rest => ?_⟩
  obtain ⟨components, hreading, hbare⟩ := hfront.read offset (back ++ rest)
  obtain ⟨components', hreading', hbare'⟩ := hback.read (offset + size front) rest
  refine ⟨components ++ components', ?_, by rw [Component.bareAll_append, hbare, hbare']⟩
  rw [List.append_assoc, Text.size_append, ← Nat.add_assoc]
  exact hreading.append hreading'

theorem blank : Fluent [' '] [] := by
  refine ⟨⟨[.plain ' '], rfl, .plain (by decide)⟩, fun offset rest => ⟨[], ?_, rfl⟩⟩
  exact .separator (Cursor.separator?_of_reads (.blank (c := ' ') (by decide)) ⟨rfl, rfl⟩)
    (.nil _ _)

theorem comma : Fluent [','] [.token ⟨0, 0⟩ .comma] := by
  refine ⟨⟨[.plain ','], rfl, .plain (by decide)⟩,
    fun offset rest => ⟨[.token ⟨offset, offset + size [',']⟩ .comma], ?_, rfl⟩⟩
  have htoken : AtToken (',' :: rest) := atToken_of_ne (by decide) (by decide)
  exact .token htoken rfl (.nil false ⟨offset + size [','], rest⟩)

/-- A text that is read as one token wherever it stands. -/
theorem of_piece? {text : List Char} {leaf : Token}
    (hflows : ∃ lexemes, spell lexemes = text ∧ Flows lexemes)
    (htoken : ∀ rest, AtToken (text ++ rest))
    (hpiece : ∀ (cur : Cursor) rest, cur.rest = text ++ rest →
      cur.piece? = .ok (some (.token leaf, cur.pass text rest))) :
    Fluent text [.token ⟨0, 0⟩ leaf] := by
  refine ⟨hflows, fun offset rest => ⟨[.token ⟨offset, offset + size text⟩ leaf], ?_, rfl⟩⟩
  exact .token (htoken rest) (hpiece _ rest rfl) (.nil _ _)

theorem flows_quote {text : String} (hbreak : '\n' ∉ text.toList) :
    ∃ lexemes, spell lexemes = (quote text).toList ∧ Flows lexemes := by
  have hflows := Flows.quoted hbreak
  generalize (quote text).toList = quotation at hflows
  exact ⟨[.quoted quotation], List.append_nil quotation, hflows⟩

/-- The lexemes of a word with a text in parentheses. -/
theorem flows_call {word inside : List Char} (hword : ∀ c ∈ word, Ordinary c)
    (hinside : ∃ lexemes, spell lexemes = inside ∧ Flows lexemes) :
    ∃ lexemes, spell lexemes = word ++ '(' :: (inside ++ [')']) ∧ Flows lexemes := by
  obtain ⟨lexemes, rfl, hflows⟩ := hinside
  refine ⟨word.map Lexeme.plain ++ ([.plain '('] ++ lexemes ++ [.plain ')']), ?_,
    (Flows.of_ordinary hword).append hflows.parenthesized⟩
  rw [spell_append, spell_plain, spell_append, spell_append]
  simp [Lexeme.text]

theorem piece?_word {word : List Char} (h : isWord word = true) (hu : word.head? ≠ some 'u')
    (offset : Nat) (rest : List Char) :
    (Cursor.mk offset (word ++ '(' :: rest)).piece? =
      .ok (some (.opening (String.ofList word), ⟨offset + size (word ++ ['(']), rest⟩)) := by
  have hparenthesis : (spanName ('(' :: rest)).1 = [] := rfl
  have hidentifier := identifier?_word h hparenthesis offset
  have hurl : (Cursor.mk offset (word ++ '(' :: rest)).url? = none := by
    by_contra hsome
    obtain ⟨found, hfound⟩ := Option.ne_none_iff_exists'.mp hsome
    obtain ⟨-, c, tail, hcons, hc⟩ := Cursor.eq_url_of_url? hfound
    cases word with
    | nil => cases h
    | cons d word =>
      cases hcons
      rw [toLower_of_isLower (isWord_cons.mp h).1] at hc
      exact hu (congrArg some hc)
  rw [Cursor.piece?_eq_word hidentifier hurl, Cursor.word, Cursor.char?_of_cons rfl,
    unescape_word (ne_backslash_of_isWord h), lower_word h, Cursor.pass]
  simp only [Text.size_append, Nat.add_assoc]

/-- A function with a quoted text as its argument. -/
theorem call {word : List Char} {text : String} (h : isWord word = true)
    (hu : word.head? ≠ some 'u') (hbreak : '\n' ∉ text.toList) :
    Fluent (word ++ '(' :: ((quote text).toList ++ [')']))
      [.function ⟨0, 0⟩ (String.ofList word) [.token ⟨0, 0⟩ (.string text)]] := by
  refine ⟨flows_call (fun _ => ordinary_of_isWord h) (flows_quote hbreak), fun offset rest => ?_⟩
  have hquote (cur : Cursor) (rest : List Char) (hrest : cur.rest = (quote text).toList ++ rest) :=
    Cursor.piece?_quote hbreak hrest
  have htokenQuote := @atToken_quote text
  generalize (quote text).toList = quotation at hquote htokenQuote
  have hpiece := piece?_word h hu offset (quotation ++ ')' :: rest)
  have hstring := hquote ⟨offset + size (word ++ ['(']), quotation ++ ')' :: rest⟩ _ rfl
  have htoken : AtToken (word ++ '(' :: (quotation ++ ')' :: rest)) := by
    cases word with
    | nil => cases h
    | cons c word =>
      obtain ⟨hlower, -⟩ := isWord_cons.mp h
      refine ⟨?_, fun heq => absurd heq (ne_of_isLower hlower rfl)⟩
      simp only [Char.isWhitespace, Bool.or_eq_false_iff, decide_eq_false_iff_not]
      exact ⟨⟨⟨ne_of_isLower hlower rfl, ne_of_isLower hlower rfl⟩, ne_of_isLower hlower rfl⟩,
        ne_of_isLower hlower rfl⟩
  have hclose : Reads ⟨offset + size (word ++ ['(']) + size quotation, ')' :: rest⟩ [')']
      ⟨offset + size (word ++ '(' :: (quotation ++ [')'])), rest⟩ := by
    refine ⟨rfl, ?_⟩
    simp only [Text.size_append, Text.size_cons, Text.size_nil]
    omega
  have hreading := Component.Reading.function htoken hpiece
    (.token (htokenQuote _) hstring (.nil true _)) (atToken_of_ne (by decide) (by decide))
    (Component.piece?_eq_closing_iff.mpr hclose) (.nil false _)
  rw [List.append_assoc, List.cons_append, List.append_assoc]
  exact ⟨_, hreading, rfl⟩

theorem word?_of_append {cur : Cursor} {word text rest : List Char}
    (h : text.map Char.toLower = word) (hrest : cur.rest = text ++ rest) :
    cur.word? word = some (cur.pass text rest) := by
  have hlength : word.length = text.length := by rw [← h, List.length_map]
  rw [Cursor.word?, hrest, hlength]
  simp [h]

/-- An address with a quoted text. -/
theorem url {text : String} (hbreak : '\n' ∉ text.toList) :
    Fluent ("url".toList ++ '(' :: ((quote text).toList ++ [')']))
      [.token ⟨0, 0⟩ (.url text)] := by
  have hspell : "url".toList = ['u', 'r', 'l'] := by decide +kernel
  have hordinary : ∀ c ∈ "url".toList, Ordinary c := ordinary_of_all (by decide +kernel)
  have hpiece (cur : Cursor) (rest : List Char)
      (hrest : cur.rest = "url".toList ++ '(' :: ((quote text).toList ++ [')']) ++ rest) :
      cur.piece? = .ok (some (.token (.url text),
        cur.pass ("url".toList ++ '(' :: ((quote text).toList ++ [')'])) rest)) := by
    refine Cursor.piece?_of_url? ?_
    rw [hspell] at hrest ⊢
    have hquoted (cur : Cursor) (rest : List Char)
        (hrest : cur.rest = (quote text).toList ++ rest) := Cursor.quoted?_quote hbreak hrest
    have htoken := @atToken_quote text
    have hquote (rest : List Char) : ((quote text).toList ++ rest).head?.any isQuote = true := by
      rw [toList_quote]
      rfl
    generalize (quote text).toList = quotation at hrest hquoted htoken hquote
    have hopening : cur.rest = ['u', 'r', 'l', '('] ++ (quotation ++ ')' :: rest) := by
      rw [hrest]
      simp
    have hword : cur.word? ['u', 'r', 'l', '('] = _ := word?_of_append (by decide) hopening
    have hurl := Component.url?_of_string hword (Cursor.skipTrivia_of_atToken (htoken _))
      (hquote _) (hquoted _ _ rfl)
      (Cursor.skipTrivia_of_atToken (atToken_of_ne (by decide) (by decide)))
    rw [hurl, Cursor.char?_of_cons rfl, Option.map_some]
    simp only [Cursor.pass, Text.size_append, Text.size_cons, Text.size_nil, Nat.add_assoc,
      Nat.add_zero]
  refine .of_piece? (flows_call hordinary (flows_quote hbreak)) (fun rest => ?_) hpiece
  rw [hspell]
  exact atToken_of_ne (by decide) (by decide)

end Fluent

/-- A fluent text that ends with a parenthesis or a quote is a legible value. -/
theorem Fluent.legible {value text : List Char} {c : Char} {parts : List Component}
    (h : Fluent value parts) (hlast : value = text ++ [c]) (hblank : isBlank c = false)
    (hslash : c ≠ '/') (hmark : c.toLower ∉ "important".toList) :
    ∃ components, Legible value components ∧ Component.bareAll components = parts := by
  obtain ⟨components, hreading, hbare⟩ := h.read 0 []
  rw [List.append_nil] at hreading
  exact ⟨components, .of_last h.flows (Component.readAll_eq_ok_iff.mpr ⟨_, hreading, rfl⟩) hlast
    hblank hslash hmark, hbare⟩

/-- A quoted name is read as a string. -/
theorem legible_quote {text : String} (hbreak : '\n' ∉ text.toList) :
    ∃ span, Legible (quote text).toList [.token span (.string text)] := by
  have hflows := Fluent.flows_quote hbreak
  have hpiece (cur : Cursor) (rest : List Char) (hrest : cur.rest = (quote text).toList ++ rest) :=
    Cursor.piece?_quote hbreak hrest
  have hbegins := @atToken_quote text
  have hlast := toList_quote text
  generalize (quote text).toList = quotation at hflows hpiece hbegins hlast ⊢
  have htoken := hbegins []
  rw [List.append_nil] at htoken
  have hreading := Component.Reading.token htoken
    (hpiece (.start quotation) [] (List.append_nil _).symm) (.nil false _)
  exact ⟨_, .of_last hflows (Component.readAll_eq_ok_iff.mpr ⟨_, hreading, rfl⟩) hlast (by decide)
    (by decide) (by decide +kernel)⟩

end WebFonts.Css

/-! ### Faces and fallback families -/

namespace WebFonts

open Css (Component Fluent Legible Readable isBland isWord)
open Rule (quote)

/-- A source without a line feed in its texts, and without a technology. -/
def Source.Plain : Source → Prop
  | url address format tech =>
    '\n' ∉ address.toList ∧ (∀ text, format = some text → '\n' ∉ text.toList) ∧ tech = none
  | installed name => '\n' ∉ name.toList

/-- A face that is described by its sources only, without a line feed in them. -/
def Face.Plain (face : Face) : Prop :=
  face = .ofSources face.sources ∧ ∀ source ∈ face.sources, source.Plain

/-- A family with plain faces, and without a line feed in the names of its local fonts. -/
def Family.Plain (family : Family) : Prop :=
  (∀ face ∈ family.faces, face.Plain) ∧ ∀ installed ∈ family.fallbacks, '\n' ∉ installed.toList

/-- An address that is made relative gets no line feed. -/
theorem Rule.not_mem_relativeTo {directory address : String} (h : '\n' ∉ address.toList) :
    '\n' ∉ (relativeTo directory address).toList := by
  unfold relativeTo
  split
  · exact h
  · rename_i path hpath
    dsimp only
    rw [String.toList_ofList, List.mem_append, not_or]
    constructor
    · intro hmem
      obtain ⟨climb, hclimb, hmem⟩ := List.mem_flatten.mp hmem
      obtain ⟨-, rfl⟩ := List.mem_replicate.mp hclimb
      revert hmem
      decide
    · intro hmem
      refine h ?_
      unfold rootPath? at hpath
      split at hpath
      · cases hpath
      · rename_i heq
        cases hpath
        rw [heq]
        exact List.mem_cons_of_mem _ hmem
      · cases hpath

/-- The components that a source stands for in a stylesheet that lies in a directory. -/
def Source.components (directory : Option String) : Source → List Component
  | url address format _ =>
    .token ⟨0, 0⟩ (.url (directory.elim address (Rule.relativeTo · address))) ::
      format.toList.map fun format => .function ⟨0, 0⟩ "format" [.token ⟨0, 0⟩ (.string format)]
  | installed name => [.function ⟨0, 0⟩ "local" [.token ⟨0, 0⟩ (.string name)]]

/-- The components that some sources stand for, with commas between them. -/
def Source.list (directory : Option String) (sources : List Source) : List Component :=
  [.token ⟨0, 0⟩ .comma].intercalate (sources.map (Source.components directory))

/-- A plain source is read wherever it stands, and ends with a parenthesis. -/
theorem Source.Plain.fluent {source : Source} (h : source.Plain) (directory : Option String) :
    Fluent (source.css directory).toList (source.components directory) ∧
      ∃ text, (source.css directory).toList = text ++ [')'] := by
  cases source with
  | installed name =>
    have hcss : ((Source.installed name).css directory).toList =
        "local".toList ++ '(' :: ((quote name).toList ++ [')']) := by
      simp [Source.css, toString]
    rw [hcss]
    refine ⟨.call (by decide +kernel) (by decide +kernel) h,
      "local".toList ++ '(' :: (quote name).toList, ?_⟩
    simp
  | url address format tech =>
    obtain ⟨haddress, hformat, rfl⟩ := h
    have hbreak : '\n' ∉ (directory.elim address (Rule.relativeTo · address)).toList := by
      cases directory with
      | none => exact haddress
      | some directory => exact Rule.not_mem_relativeTo haddress
    generalize haddressEq : directory.elim address (Rule.relativeTo · address) = target at hbreak
    cases format with
    | none =>
      have hcss : ((Source.url address none none).css directory).toList =
          "url".toList ++ '(' :: ((quote target).toList ++ [')']) := by
        simp [Source.css, toString, haddressEq]
      rw [hcss, Source.components, haddressEq]
      exact ⟨.url hbreak, "url".toList ++ '(' :: (quote target).toList, by simp⟩
    | some text =>
      have hcss : ((Source.url address (some text) none).css directory).toList =
          "url".toList ++ '(' :: ((quote target).toList ++ [')']) ++ ([' '] ++
            ("format".toList ++ '(' :: ((quote text).toList ++ [')']))) := by
        simp [Source.css, toString, haddressEq]
      rw [hcss, Source.components, haddressEq]
      refine ⟨(Fluent.url hbreak).append (Fluent.blank.append (.call (by decide +kernel)
        (by decide +kernel) (hformat text rfl))), "url".toList ++ '(' :: ((quote target).toList ++
          [')']) ++ ([' '] ++ ("format".toList ++ '(' :: (quote text).toList)), ?_⟩
      simp

/-- The sources of a face are a legible value, which is read as these sources. -/
theorem legible_sources {sources : List Source} (h : ∀ source ∈ sources, source.Plain)
    (directory : Option String) :
    ∃ components,
      Legible (", ".intercalate (sources.map (Source.css directory))).toList components ∧
        Css.Component.bareAll components = Source.list directory sources := by
  suffices sources ≠ [] → Fluent (", ".intercalate (sources.map (Source.css directory))).toList
        (Source.list directory sources) ∧
      ∃ text, (", ".intercalate (sources.map (Source.css directory))).toList = text ++ [')'] by
    by_cases hne : sources = []
    · subst hne
      exact ⟨[], Legible.nil, rfl⟩
    · obtain ⟨hfluent, text, hlast⟩ := this hne
      exact hfluent.legible hlast (by decide) (by decide) (by decide +kernel)
  intro hne
  induction sources with
  | nil => exact absurd rfl hne
  | cons source sources ih =>
    have hsource := (h source (List.mem_cons_self ..)).fluent directory
    cases sources with
    | nil =>
      rw [List.map_singleton, String.intercalate_singleton, Source.list, List.map_singleton,
        List.intercalate_singleton]
      exact hsource
    | cons second sources =>
      obtain ⟨hfluent, text, hlast⟩ :=
        ih (fun other hmem => h other (List.mem_cons_of_mem _ hmem)) (by simp)
      have hcons :
          (", ".intercalate ((source :: second :: sources).map (Source.css directory))).toList =
          (source.css directory).toList ++ ([','] ++ ([' '] ++
            (", ".intercalate ((second :: sources).map (Source.css directory))).toList)) := by
        rw [List.map_cons, List.map_cons, String.intercalate_cons_cons]
        simp
      have hlist : Source.list directory (source :: second :: sources) =
          source.components directory ++ ([.token ⟨0, 0⟩ .comma] ++ ([] ++
            Source.list directory (second :: sources))) := by
        rw [Source.list, List.map_cons, List.map_cons, List.intercalate_cons_cons]
        simp [Source.list]
      rw [hcons, hlist]
      refine ⟨hsource.1.append (Fluent.comma.append (Fluent.blank.append hfluent)),
        (source.css directory).toList ++ ([','] ++ ([' '] ++ text)), ?_⟩
      rw [hlast]
      simp

/-- The texts of a weight. -/
def Weight.texts : Weight → List String
  | single weight => [weight]
  | range least greatest => [least, greatest]

/-- The texts of a face beside its sources. -/
def Face.texts (face : Face) : List String :=
  face.weight.elim [] Weight.texts ++
    [face.display, face.style, face.stretch, face.unicodeRange, face.featureSettings,
      face.variationSettings].filterMap id

/-- A face has no other texts beside its sources than those of letters, digits, spaces and a few
signs. -/
def Face.Bland (face : Face) : Prop :=
  ∀ text ∈ face.texts, ∀ c ∈ text.toList, isBland c = true

theorem Weight.isBland_css {weight : Weight}
    (h : ∀ text ∈ weight.texts, ∀ c ∈ text.toList, isBland c = true) :
    ∀ c ∈ weight.css.toList, isBland c = true := by
  cases weight with
  | single weight => exact h weight (List.mem_singleton_self weight)
  | range least greatest =>
    have hleast := h least (by simp [texts])
    have hgreatest := h greatest (by simp [texts])
    have hcss : (range least greatest).css.toList =
        least.toList ++ ' ' :: greatest.toList := by
      simp [css, toString]
    rw [hcss]
    exact List.forall_mem_append.mpr ⟨hleast, List.forall_mem_cons.mpr ⟨by decide, hgreatest⟩⟩

/-- The descriptors that are present among some are readable if their values are. -/
theorem readable_filterMap {optional : List (String × Option String)}
    (h : ∀ entry ∈ optional, isWord entry.1.toList = true ∧
      ∀ value, entry.2 = some value → ∀ c ∈ value.toList, isBland c = true) :
    Readable (optional.filterMap fun (name, value) => value.map (name, ·)) := by
  intro descriptor hmem
  obtain ⟨⟨name, value⟩, hentry, hsome⟩ := List.mem_filterMap.mp hmem
  obtain ⟨text, rfl, rfl⟩ := Option.map_eq_some_iff.mp hsome
  obtain ⟨hword, hbland⟩ := h _ hentry
  exact ⟨hword, Css.legible_of_isBland (hbland text rfl)⟩

/-- The descriptors of a face can be read if its sources are plain and its other texts bland. -/
theorem Face.readable {face : Face} {name : String}
    (hsources : ∀ source ∈ face.sources, source.Plain) (hbland : face.Bland)
    (hname : '\n' ∉ name.toList) (directory : Option String) :
    Readable (face.descriptors name directory) := by
  obtain ⟨span, hquote⟩ := Css.legible_quote hname
  obtain ⟨components, hlist, -⟩ := legible_sources hsources directory
  have hdisplay : ∃ components, Legible (face.display.getD "swap").toList components := by
    cases hdisplay : face.display with
    | none => exact Css.legible_swap
    | some text => exact Css.legible_of_isBland (hbland text (by simp [texts, hdisplay]))
  refine .cons (by decide +kernel) ⟨_, hquote⟩ (.cons (by decide +kernel) ⟨_, hlist⟩
    (.cons (by decide +kernel) hdisplay (readable_filterMap ?_)))
  simp only [List.forall_mem_cons, List.not_mem_nil, false_implies, implies_true, and_true]
  refine ⟨⟨by decide +kernel, fun value hvalue => ?_⟩, ⟨by decide +kernel, fun value hvalue => ?_⟩,
    ⟨by decide +kernel, fun value hvalue => ?_⟩, ⟨by decide +kernel, fun value hvalue => ?_⟩,
    ⟨by decide +kernel, fun value hvalue => ?_⟩, ⟨by decide +kernel, fun value hvalue => ?_⟩⟩
  · obtain ⟨weight, hweight, rfl⟩ := Option.map_eq_some_iff.mp hvalue
    exact Weight.isBland_css fun text hmem => hbland text (by simp [texts, hweight, hmem])
  all_goals exact hbland value (by simp [texts, hvalue])

/-- The descriptors of a plain face can be read. -/
theorem Face.Plain.readable {face : Face} {name : String} (h : face.Plain)
    (hname : '\n' ∉ name.toList) (directory : Option String) :
    Readable (face.descriptors name directory) := by
  obtain ⟨hface, hsources⟩ := h
  refine Face.readable hsources ?_ hname directory
  rw [hface]
  nofun

/-- The descriptors of the rule that gives a local font another name. -/
def fallbackDescriptors (name installed : String) (web : Option Metrics) : List (String × String) :=
  [("font-family", quote name), ("src", s!"local({quote installed})")] ++
    match web, localMetrics? installed with
    | some web, some own => (Overrides.fit web own).descriptors
    | _, _ => []

/-- The descriptors of a fallback family can be read. -/
theorem readable_fallbackDescriptors {name installed : String} (hname : '\n' ∉ name.toList)
    (hinstalled : '\n' ∉ installed.toList) (web : Option Metrics) :
    Readable (fallbackDescriptors name installed web) := by
  obtain ⟨span, hquote⟩ := Css.legible_quote hname
  have hplain : ∀ source ∈ [Source.installed installed], source.Plain :=
    fun source hmem => List.mem_singleton.mp hmem ▸ hinstalled
  obtain ⟨components, hlocal, -⟩ := legible_sources hplain none
  rw [List.map_singleton, String.intercalate_singleton] at hlocal
  refine .cons (by decide +kernel) ⟨_, hquote⟩ (.cons (by decide +kernel) ⟨_, hlocal⟩ ?_)
  split
  · exact .cons (by decide +kernel) (Css.legible_percent _) (.cons (by decide +kernel)
      (Css.legible_percent _) (.cons (by decide +kernel) (Css.legible_percent _)
        (.cons (by decide +kernel) (Css.legible_percent _) .nil)))
  · exact .nil

end WebFonts
