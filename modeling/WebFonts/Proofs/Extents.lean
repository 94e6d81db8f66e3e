import Mathlib.Data.List.DropRight
import WebFonts.Css.Extent
import WebFonts.Proofs.Lexing

/-!
# Extents in terms of lexemes

The functions that find the end of a stretch of text walk over lexemes. This file says where they
end without the walk: `Cursor.upTo` at the first lexeme at which a sequence stops to pass
(`Cursor.upTo_eq_ok_iff`), `Cursor.closeBlock` at a place that does not depend on the text behind
it, and `dropTrailingTrivia` behind the last lexeme that means something.
-/

namespace WebFonts.Css

open Text (size isBlank)

/-! ### Passing over lexemes -/

/-- None of the lexemes is a stopping character outside brackets, if `depth` brackets are open in
front of them. -/
def Passes (stops : List Char) : Nat → List Lexeme → Prop
  | _, [] => True
  | depth, lexeme :: lexemes =>
    ¬ (depth = 0 ∧ lexeme.isOneOf stops = true) ∧ Passes stops (lexeme.depthAfter depth) lexemes

/-- The bracket depth behind some lexemes. -/
def depthBehind (depth : Nat) (lexemes : List Lexeme) : Nat :=
  lexemes.foldl Lexeme.depthAfter depth

/-- A text ends, or a stopping character stands at its beginning and outside brackets. -/
def Halts (stops : List Char) (depth : Nat) (rest : List Char) : Prop :=
  rest = [] ∨ depth = 0 ∧ ∃ c ∈ stops, rest.head? = some c

/-- Characters that always stand for themselves. -/
def Plain (stops : List Char) : Prop :=
  ∀ c ∈ stops, c ≠ '\\' ∧ c ≠ '/' ∧ isQuote c = false

theorem passes_append {stops : List Char} {depth : Nat} {front back : List Lexeme} :
    Passes stops depth (front ++ back) ↔
      Passes stops depth front ∧ Passes stops (depthBehind depth front) back := by
  induction front generalizing depth with
  | nil => simp [Passes, depthBehind]
  | cons lexeme front ih => simp [Passes, depthBehind, ih, and_assoc]

theorem depthBehind_append (depth : Nat) (front back : List Lexeme) :
    depthBehind depth (front ++ back) = depthBehind (depthBehind depth front) back :=
  List.foldl_append

theorem Halts.congr {stops rest rest' : List Char} {depth : Nat} (h : Halts stops depth rest)
    (hhead : rest.head? = rest'.head?) : Halts stops depth rest' := by
  rcases h with rfl | ⟨hdepth, c, hmem, hc⟩
  · rw [List.head?_nil, eq_comm, List.head?_eq_none_iff] at hhead
    exact .inl hhead
  · exact .inr ⟨hdepth, c, hmem, hhead ▸ hc⟩

namespace Cursor

variable {stops : List Char} {cur stop : Cursor} {depth : Nat}

theorem upTo_of_lexeme? {next : Cursor} {lexeme : Lexeme}
    (h : cur.lexeme? = .ok (some (lexeme, next)))
    (hpass : ¬ (depth = 0 ∧ lexeme.isOneOf stops = true)) :
    cur.upTo stops depth =
      match next.upTo stops (lexeme.depthAfter depth) with
      | .error fault => .error fault
      | .ok (text, stop) => .ok (lexeme.text ++ text, stop) := by
  rw [upTo.eq_def]
  split
  · simp_all
  · simp_all
  · rename_i hlexeme
    rw [h] at hlexeme
    cases hlexeme
    refine (if_neg ?_).trans rfl
    simpa using hpass

theorem upTo_of_halts (hplain : Plain stops) (h : Halts stops depth cur.rest) :
    cur.upTo stops depth = .ok ([], cur) := by
  rcases h with hend | ⟨hdepth, c, hmem, hc⟩
  · rw [upTo.eq_def]
    have := lexeme?_eq_ok_none_iff.mpr hend
    split <;> simp_all
  · obtain ⟨rest, hrest⟩ : ∃ rest, cur.rest = c :: rest := by
      cases hcur : cur.rest with
      | nil => simp [hcur] at hc
      | cons d rest => exact ⟨rest, by simp_all⟩
    obtain ⟨hescape, hslash, hquote⟩ := hplain c hmem
    have hread : cur.lexeme? = .ok (some (.plain c, cur.pass [c] rest)) := by
      rw [lexeme?_of_cons hrest hescape (absurd · hslash), if_neg (by simpa using hquote)]
    rw [upTo.eq_def]
    split
    · simp_all
    · simp_all
    · rename_i lexeme next hlexeme
      rw [hread] at hlexeme
      cases hlexeme
      simp [hdepth, Lexeme.isOneOf, hmem]

theorem upTo_of_passes {lexemes : List Lexeme} (hplain : Plain stops)
    (hreads : Reads cur (spell lexemes) stop) (hlexes : Lexes lexemes stop.rest)
    (hpasses : Passes stops depth lexemes)
    (hhalts : Halts stops (depthBehind depth lexemes) stop.rest) :
    cur.upTo stops depth = .ok (spell lexemes, stop) := by
  induction lexemes generalizing cur depth with
  | nil =>
    obtain ⟨hrest, hoffset⟩ := hreads
    obtain ⟨offset, rest⟩ := cur
    obtain ⟨offset', rest'⟩ := stop
    simp only [spell_nil, List.nil_append, Text.size_nil, Nat.add_zero] at hrest hoffset
    subst hrest hoffset
    exact upTo_of_halts hplain hhalts
  | cons lexeme lexemes ih =>
    obtain ⟨hbefore, hothers⟩ := hlexes
    obtain ⟨hpass, htail⟩ := hpasses
    have hfirst : Reads cur lexeme.text (cur.pass lexeme.text (spell lexemes ++ stop.rest)) :=
      reads_pass (by rw [hreads.rest_eq, spell_cons, List.append_assoc])
    have hrest : Reads (cur.pass lexeme.text (spell lexemes ++ stop.rest)) (spell lexemes) stop :=
      ⟨rfl, by rw [hreads.offset_eq, spell_cons, Text.size_append, pass, Nat.add_assoc]⟩
    rw [upTo_of_lexeme? (lexeme?_of_before hbefore hfirst) hpass, ih hrest hothers htail hhalts]
    rfl

theorem passes_of_upTo {text : List Char} (h : cur.upTo stops depth = .ok (text, stop)) :
    ∃ lexemes, text = spell lexemes ∧ Lexes lexemes stop.rest ∧ Passes stops depth lexemes ∧
      Halts stops (depthBehind depth lexemes) stop.rest := by
  fun_induction upTo stops depth cur generalizing text stop with
  | case1 => cases h
  | case2 depth cur hnone =>
    cases h
    exact ⟨[], rfl, trivial, trivial, .inl (lexeme?_eq_ok_none_iff.mp hnone)⟩
  | case3 depth cur lexeme next hlexeme hstop =>
    cases h
    simp only [Bool.and_eq_true, beq_iff_eq] at hstop
    obtain ⟨c, rest, hrest, hmem⟩ := lexeme?_isOneOf hlexeme hstop.2
    exact ⟨[], rfl, trivial, trivial, .inr ⟨hstop.1, c, hmem, by rw [hrest]; rfl⟩⟩
  | case4 => cases h
  | case5 depth cur lexeme next hlexeme hpass tail last htail ih =>
    cases h
    obtain ⟨lexemes, rfl, hlexes, hpasses, hhalts⟩ := ih htail
    refine ⟨lexeme :: lexemes, rfl, ⟨?_, hlexes⟩, ⟨by simpa using hpass, hpasses⟩, hhalts⟩
    have hbefore := before_of_lexeme? hlexeme
    rwa [(reads_upTo htail).rest_eq] at hbefore

/-- Reading up to a stopping character is passing over lexemes until one stops. -/
theorem upTo_eq_ok_iff (hplain : Plain stops) {text : List Char} :
    cur.upTo stops depth = .ok (text, stop) ↔
      Reads cur text stop ∧ ∃ lexemes, text = spell lexemes ∧ Lexes lexemes stop.rest ∧
        Passes stops depth lexemes ∧ Halts stops (depthBehind depth lexemes) stop.rest := by
  constructor
  · intro h
    exact ⟨reads_upTo h, passes_of_upTo h⟩
  · rintro ⟨hreads, lexemes, rfl, hlexes, hpasses, hhalts⟩
    exact upTo_of_passes hplain hreads hlexes hpasses hhalts

/-- The same stretch is found in front of any text that begins with the same character. -/
theorem upTo_congr (hplain : Plain stops) {text rest : List Char}
    (h : cur.upTo stops depth = .ok (text, stop)) (hhead : stop.rest.head? = rest.head?)
    (offset : Nat) :
    (Cursor.mk offset (text ++ rest)).upTo stops depth =
      .ok (text, ⟨offset + size text, rest⟩) := by
  obtain ⟨lexemes, rfl, hlexes, hpasses, hhalts⟩ := passes_of_upTo h
  exact upTo_of_passes hplain ⟨rfl, rfl⟩ (hlexes.congr hhead) hpasses (hhalts.congr hhead)

/-! ### Blocks -/

theorem plain_braces : Plain ['{', '}'] := by
  intro c hmem
  simp only [List.mem_cons, List.not_mem_nil, or_false] at hmem
  rcases hmem with rfl | rfl <;> decide

theorem closeBlock_of_upTo {brace outer offset : Nat} {front rest : List Char} {c : Char}
    (h : cur.upTo ['{', '}'] 0 = .ok (front, ⟨offset, c :: rest⟩)) :
    cur.closeBlock brace (outer + 1) =
      match closeBlock brace (if c == '{' then outer + 2 else outer) ⟨offset + size [c], rest⟩ with
      | .error fault => .error fault
      | .ok (tail, last) => .ok (front ++ c :: tail, last) := by
  rw [closeBlock.eq_def]
  dsimp only
  split
  · simp_all
  · rename_i hfound
    rw [h] at hfound
    cases hfound
    rfl
  · simp_all

/-- Where a block is closed does not depend on the text behind it. -/
theorem closeBlock_congr {brace : Nat} {last : Cursor} {text : List Char}
    (h : cur.closeBlock brace depth = .ok (text, last)) (brace' offset : Nat) (rest : List Char) :
    (Cursor.mk offset (text ++ rest)).closeBlock brace' depth =
      .ok (text, ⟨offset + size text, rest⟩) := by
  fun_induction closeBlock brace depth cur generalizing text last offset with
  | case1 => cases h; simp [closeBlock]
  | case2 => cases h
  | case3 => cases h
  | case4 cur outer front start c after hfront tail last' htail ih =>
    cases h
    have hhead : (c :: after).head? = (c :: (tail ++ rest)).head? := rfl
    have hup := upTo_congr plain_braces hfront hhead offset
    rw [List.append_assoc, List.cons_append, closeBlock_of_upTo hup]
    simp only [dite_eq_ite] at ih htail
    rw [ih htail]
    simp [Nat.add_assoc]
  | case5 => cases h

theorem block_congr {last : Cursor} {text : List Char} (h : cur.block = .ok (text, last))
    (offset : Nat) (rest : List Char) :
    (Cursor.mk offset (text ++ rest)).block = .ok (text, ⟨offset + size text, rest⟩) := by
  unfold block fail at h
  split at h
  · next c after hrest =>
    simp only [bind, Except.bind, pure, Except.pure] at h
    split at h <;> cases h
    rename_i hclose
    simp [block, pass, closeBlock_congr hclose, bind, Except.bind, pure, Except.pure,
      Nat.add_assoc]
  · cases h

end Cursor

/-! ### Trailing trivia -/

theorem rdropWhile_cons {α : Type} (p : α → Bool) (a : α) (as : List α) :
    (a :: as).rdropWhile p =
      if as.rdropWhile p = [] ∧ p a = true then [] else a :: as.rdropWhile p := by
  simp only [List.rdropWhile, List.reverse_cons, List.dropWhile_append, List.reverse_eq_nil_iff]
  cases hdrop : as.reverse.dropWhile p with
  | nil => cases hp : p a <;> simp [hp]
  | cons b bs => simp

theorem Lexes.rdropWhile {lexemes : List Lexeme} (h : Lexes lexemes []) :
    Lexes (lexemes.rdropWhile Lexeme.isTrivia) [] := by
  obtain ⟨tail, htail⟩ := lexemes.rdropWhile_prefix Lexeme.isTrivia
  rw [← htail] at h
  exact (lexes_append.mp h).1.atEnd

theorem Lexes.spell_eq_nil {lexemes : List Lexeme} {rest : List Char} (h : Lexes lexemes rest) :
    spell lexemes = [] ↔ lexemes = [] := by
  cases lexemes with
  | nil => simp
  | cons lexeme lexemes => simp [h.1.text_ne_nil]

/-- A text is divided into lexemes in one way. -/
theorem Lexes.unique {lexemes lexemes' : List Lexeme} (h : Lexes lexemes [])
    (h' : Lexes lexemes' []) (heq : spell lexemes = spell lexemes') : lexemes = lexemes' := by
  have heq' : spell lexemes = spell lexemes' ++ [] := by rw [heq, List.append_nil]
  obtain ⟨tail, rfl, htail⟩ := h.split h' heq'
  rw [(lexes_append.mp h).2.spell_eq_nil.mp htail, List.append_nil]

namespace Cursor

theorem withoutTrailingTrivia_of_lexeme? {cur next : Cursor} {lexeme : Lexeme}
    (h : cur.lexeme? = .ok (some (lexeme, next))) :
    cur.withoutTrailingTrivia =
      match next.withoutTrailingTrivia with
      | .error fault => .error fault
      | .ok kept => .ok (if kept.isEmpty && lexeme.isTrivia then [] else lexeme.text ++ kept) := by
  rw [withoutTrailingTrivia.eq_def]
  split
  · simp_all
  · simp_all
  · rename_i hlexeme
    rw [h] at hlexeme
    cases hlexeme
    rfl

theorem withoutTrailingTrivia_of_lexes {lexemes : List Lexeme} (h : Lexes lexemes [])
    (offset : Nat) :
    (Cursor.mk offset (spell lexemes)).withoutTrailingTrivia =
      .ok (spell (lexemes.rdropWhile Lexeme.isTrivia)) := by
  induction lexemes generalizing offset with
  | nil =>
    have hnone : (Cursor.mk offset []).lexeme? = .ok none := rfl
    rw [spell_nil, withoutTrailingTrivia.eq_def]
    split <;> simp_all
  | cons lexeme lexemes ih =>
    obtain ⟨hbefore, hothers⟩ := h
    rw [List.append_nil] at hbefore
    have hread : (Cursor.mk offset (spell (lexeme :: lexemes))).lexeme? =
        .ok (some (lexeme, ⟨offset + size lexeme.text, spell lexemes⟩)) :=
      lexeme?_of_before hbefore ⟨rfl, rfl⟩
    rw [withoutTrailingTrivia_of_lexeme? hread, ih hothers, rdropWhile_cons]
    simp only [Bool.and_eq_true, List.isEmpty_iff, hothers.rdropWhile.spell_eq_nil]
    split <;> rfl

theorem lexes_of_withoutTrailingTrivia {cur : Cursor} {kept : List Char}
    (h : cur.withoutTrailingTrivia = .ok kept) :
    ∃ lexemes, spell lexemes = cur.rest ∧ Lexes lexemes [] := by
  fun_induction withoutTrailingTrivia cur generalizing kept with
  | case1 => cases h
  | case2 cur hnone => exact ⟨[], (lexeme?_eq_ok_none_iff.mp hnone).symm, trivial⟩
  | case3 => cases h
  | case4 cur lexeme next hlexeme kept' hkept' ih =>
    obtain ⟨lexemes, hspell, hlexes⟩ := ih hkept'
    have hbefore := before_of_lexeme? hlexeme
    refine ⟨lexeme :: lexemes, ?_, ?_, hlexes⟩
    · rw [spell_cons, hspell, (reads_lexeme? hlexeme).rest_eq]
    · rwa [List.append_nil, hspell]

end Cursor

/-- A text that is divided into lexemes keeps those up to the last one that means something. -/
theorem dropTrailingTrivia_spell {lexemes : List Lexeme} (h : Lexes lexemes []) :
    dropTrailingTrivia (spell lexemes) = spell (lexemes.rdropWhile Lexeme.isTrivia) := by
  unfold dropTrailingTrivia Cursor.start
  rw [Cursor.withoutTrailingTrivia_of_lexes h]

/-- A text that cannot be divided into lexemes keeps everything. -/
theorem dropTrailingTrivia_of_not_lexes {text : List Char}
    (h : ¬ ∃ lexemes, spell lexemes = text ∧ Lexes lexemes []) :
    dropTrailingTrivia text = text := by
  unfold dropTrailingTrivia
  split
  · rename_i hkept
    exact absurd (Cursor.lexes_of_withoutTrailingTrivia hkept) h
  · rfl

/-- What is dropped stands at the end. -/
theorem dropTrailingTrivia_append_eq (text : List Char) :
    ∃ dropped, dropTrailingTrivia text ++ dropped = text := by
  by_cases h : ∃ lexemes, spell lexemes = text ∧ Lexes lexemes []
  · obtain ⟨lexemes, rfl, hlexes⟩ := h
    obtain ⟨tail, htail⟩ := lexemes.rdropWhile_prefix Lexeme.isTrivia
    refine ⟨spell tail, ?_⟩
    rw [dropTrailingTrivia_spell hlexes, ← spell_append, htail]
  · exact ⟨[], by rw [dropTrailingTrivia_of_not_lexes h, List.append_nil]⟩

/-- A sequence of lexemes that ends in one that means something. -/
def EndsMeaningful (lexemes : List Lexeme) : Prop :=
  ∃ front last, lexemes = front ++ [last] ∧ last.isTrivia = false

theorem rdropWhile_append_of_nil {α : Type} {p : α → Bool} (front : List α) {back : List α}
    (h : back.rdropWhile p = []) : (front ++ back).rdropWhile p = front.rdropWhile p := by
  simp only [List.rdropWhile, List.reverse_append, List.dropWhile_append, List.reverse_eq_nil_iff]
    at h ⊢
  simp [h]

theorem rdropWhile_append_of_ne_nil {α : Type} {p : α → Bool} (front : List α) {back : List α}
    (h : back.rdropWhile p ≠ []) : (front ++ back).rdropWhile p = front ++ back.rdropWhile p := by
  simp only [List.rdropWhile, List.reverse_append, List.dropWhile_append, ne_eq,
    List.reverse_eq_nil_iff] at h ⊢
  simp [h]

theorem EndsMeaningful.rdropWhile_eq {lexemes : List Lexeme} (h : EndsMeaningful lexemes) :
    lexemes.rdropWhile Lexeme.isTrivia = lexemes := by
  obtain ⟨front, last, rfl, hlast⟩ := h
  rw [List.rdropWhile_concat_neg _ _ _ (by simp [hlast])]

/-- Nothing is dropped from a part in front of something meaningful. -/
theorem dropTrailingTrivia_append {front : List Lexeme} {text : List Char}
    (h : Lexes front text) (hend : dropTrailingTrivia text ≠ [] ∨ EndsMeaningful front) :
    dropTrailingTrivia (spell front ++ text) = spell front ++ dropTrailingTrivia text := by
  by_cases hback : ∃ back, spell back = text ∧ Lexes back []
  · obtain ⟨back, rfl, hlexes⟩ := hback
    have hall : Lexes (front ++ back) [] := lexes_append.mpr ⟨by rwa [List.append_nil], hlexes⟩
    rw [← spell_append, dropTrailingTrivia_spell hall, dropTrailingTrivia_spell hlexes,
      ← spell_append]
    rw [dropTrailingTrivia_spell hlexes, Ne, hlexes.rdropWhile.spell_eq_nil] at hend
    by_cases hnil : back.rdropWhile Lexeme.isTrivia = []
    · rcases hend with hend | hend
      · exact absurd hnil hend
      · rw [rdropWhile_append_of_nil front hnil, hend.rdropWhile_eq, hnil, List.append_nil]
    · rw [rdropWhile_append_of_ne_nil front hnil]
  · rw [dropTrailingTrivia_of_not_lexes hback, dropTrailingTrivia_of_not_lexes]
    rintro ⟨lexemes, hspell, hlexes⟩
    obtain ⟨tail, rfl, htail⟩ := hlexes.split (by rwa [List.append_nil]) hspell
    exact hback ⟨tail, htail, (lexes_append.mp hlexes).2⟩

/-- If nothing meaningful follows a part in front, no more than that part is kept. -/
theorem length_dropTrailingTrivia_le {front : List Lexeme} {text : List Char}
    (h : Lexes front text) (hnil : dropTrailingTrivia text = []) :
    (dropTrailingTrivia (spell front ++ text)).length ≤ (spell front).length := by
  by_cases hback : ∃ back, spell back = text ∧ Lexes back []
  · obtain ⟨back, rfl, hlexes⟩ := hback
    have hall : Lexes (front ++ back) [] := lexes_append.mpr ⟨by rwa [List.append_nil], hlexes⟩
    rw [dropTrailingTrivia_spell hlexes, hlexes.rdropWhile.spell_eq_nil] at hnil
    rw [← spell_append, dropTrailingTrivia_spell hall, rdropWhile_append_of_nil front hnil]
    obtain ⟨tail, htail⟩ := front.rdropWhile_prefix Lexeme.isTrivia
    have hlength := congrArg (List.length ∘ spell) htail
    simp only [Function.comp, spell_append, List.length_append] at hlength
    omega
  · rw [dropTrailingTrivia_of_not_lexes hback] at hnil
    exact absurd ⟨[], hnil.symm, trivial⟩ hback

/-! ### The mark of an important declaration -/

theorem Lexes.of_append {lexemes : List Lexeme} {text rest : List Char}
    (h : Lexes lexemes (text ++ rest)) : Lexes lexemes text := by
  cases text with
  | nil => exact h.atEnd
  | cons c text => exact h.congr rfl

/-- Cutting behind a part in front leaves that part whole. -/
theorem splitAt_sub_append {front back : List Char} {n : Nat} (h : n ≤ back.length) :
    (front ++ back).splitAt ((front ++ back).length - n) =
      (front ++ back.take (back.length - n), back.drop (back.length - n)) := by
  have hlength : (front ++ back).length - n = front.length + (back.length - n) := by
    rw [List.length_append]; omega
  rw [List.splitAt_eq, hlength, List.take_length_add_append, List.drop_length_add_append]

/-- What is cut off stands at the end. -/
theorem cutImportant_append_eq (value : List Char) :
    ∃ mark, (cutImportant value).1 ++ mark = value := by
  unfold cutImportant
  obtain ⟨dropped, hdropped⟩ := dropTrailingTrivia_append_eq value
  simp only [List.splitAt_eq]
  split
  · obtain ⟨dropped', hdropped'⟩ := dropTrailingTrivia_append_eq
      ((dropTrailingTrivia value).take ((dropTrailingTrivia value).length - "important".length))
    generalize hcontent : dropTrailingTrivia value = content at *
    generalize hmarked : dropTrailingTrivia (content.take (content.length - "important".length)) =
      marked at *
    refine ⟨marked.getLast?.toList ++ dropped' ++
      content.drop (content.length - "important".length) ++ dropped, ?_⟩
    have hlast : marked.dropLast ++ marked.getLast?.toList = marked := by
      cases marked using List.reverseRecOn <;> simp
    rw [List.append_assoc, List.append_assoc, ← List.append_assoc, hlast, ← List.append_assoc,
      hdropped', ← List.append_assoc, List.take_append_drop, hdropped]
  · exact ⟨[], by rw [List.append_nil]⟩

section Insert

variable {front : List Lexeme} {back : List Char}

/-- A text is cut at a mark that stands behind a part in front of it. -/
theorem cutImportant_append_of_le (hlexes : Lexes front back)
    (hlength : "important".length ≤ (dropTrailingTrivia back).length) :
    cutImportant (spell front ++ back) =
      let content := dropTrailingTrivia back
      let (before, keyword) := content.splitAt (content.length - "important".length)
      let marked := dropTrailingTrivia (spell front ++ before)
      if Text.sameIgnoringCase (String.ofList keyword) "important" && marked.getLast? == some '!'
      then (marked.dropLast, true)
      else (spell front ++ back, false) := by
  have hne : dropTrailingTrivia back ≠ [] := by
    intro hnil
    simp [hnil] at hlength
  unfold cutImportant
  simp only [dropTrailingTrivia_append hlexes (.inl hne), splitAt_sub_append hlength,
    List.splitAt_eq]

/-- What is in front of a mark is a part of the text. -/
theorem lexes_before (hlexes : Lexes front back) (n : Nat) :
    Lexes front ((dropTrailingTrivia back).take n) := by
  obtain ⟨dropped, hdropped⟩ := dropTrailingTrivia_append_eq back
  rw [← hdropped, ← List.take_append_drop n (dropTrailingTrivia back), List.append_assoc] at hlexes
  exact hlexes.of_append

/-- A mark that is cut off does not begin inside a part that is left whole. -/
theorem le_length_of_cutImportant {kept : List Char} (hlexes : Lexes front back)
    (h : cutImportant (spell front ++ back) = (spell front ++ kept, true)) :
    "important".length ≤ (dropTrailingTrivia back).length := by
  unfold cutImportant at h
  simp only [List.splitAt_eq, Bool.and_eq_true] at h
  split at h
  · next hmark =>
    generalize hcontent : dropTrailingTrivia (spell front ++ back) = content at h hmark
    obtain ⟨dropped, hdropped⟩ := dropTrailingTrivia_append_eq
      (content.take (content.length - "important".length))
    generalize dropTrailingTrivia (content.take (content.length - "important".length)) = marked
      at h hmark hdropped
    have hne : marked ≠ [] := by rintro rfl; simp at hmark
    have hpos : 0 < marked.length := List.length_pos_iff.mpr hne
    have hcut : marked.length - 1 = (spell front).length + kept.length := by
      rw [← List.length_dropLast, (Prod.mk.inj h).1, List.length_append]
    have htaken : marked.length ≤ content.length - "important".length := by
      have := congrArg List.length hdropped
      rw [List.length_append, List.length_take] at this
      omega
    by_cases hnil : dropTrailingTrivia back = []
    · have hwhole := length_dropTrailingTrivia_le hlexes hnil
      rw [hcontent] at hwhole
      omega
    · have hwhole : content.length = (spell front).length + (dropTrailingTrivia back).length := by
        rw [← hcontent, dropTrailingTrivia_append hlexes (.inl hnil), List.length_append]
      omega
  · exact absurd (Prod.mk.inj h).2 (by simp)

/-- A text with a quote in its last nine characters is not marked. -/
theorem not_important_of_mem {keyword : List Char} {c : Char} (h : c ∈ keyword)
    (hc : c.toLower ∉ "important".toList) :
    Text.sameIgnoringCase (String.ofList keyword) "important" = false := by
  have hlower : Text.lower "important" = "important" := by decide +kernel
  rw [Bool.eq_false_iff, Ne, Text.sameIgnoringCase_iff, hlower]
  intro hsame
  refine hc ?_
  rw [← hsame, Text.lower, String.toList_map, String.toList_ofList]
  exact List.mem_map_of_mem h

/-- Without a mark the text is left as it is. -/
theorem cutImportant_of_not_important {value kept : List Char}
    (h : cutImportant value = (kept, false)) : kept = value := by
  unfold cutImportant at h
  simp only [List.splitAt_eq] at h
  split at h
  · exact absurd (Prod.mk.inj h).2 (by simp)
  · exact (Prod.mk.inj h).1.symm

/-- A character of no mark, close to the end of a text, leaves no room for a mark. -/
theorem not_important_of_short {text : List Char} {c : Char} (hend : EndsMeaningful front)
    (hlexes : Lexes front back) (hlast : spell front = text ++ [c])
    (hc : c.toLower ∉ "important".toList)
    (hshort : (dropTrailingTrivia back).length < "important".length) :
    cutImportant (spell front ++ back) = (spell front ++ back, false) := by
  unfold cutImportant
  simp only [dropTrailingTrivia_append hlexes (.inr hend), List.splitAt_eq]
  rw [if_neg]
  have hle : (spell front ++ dropTrailingTrivia back).length - "important".length ≤
      text.length := by
    rw [hlast, List.length_append, List.length_append, List.length_singleton]
    omega
  have hmem : c ∈ (spell front ++ dropTrailingTrivia back).drop
      ((spell front ++ dropTrailingTrivia back).length - "important".length) := by
    generalize (spell front ++ dropTrailingTrivia back).length - "important".length = n at hle ⊢
    rw [hlast, List.append_assoc, List.drop_append_of_le_length hle]
    simp
  rw [not_important_of_mem hmem hc]
  simp

/-- What is inserted into a text and ends in a quote stays in front of the mark and makes no mark,
if the part in front of it did. -/
theorem cutImportant_insert {inserted : List Lexeme} {text kept : List Char} {important : Bool}
    (hlexes : Lexes front back) (hlexes' : Lexes (front ++ inserted) back)
    (hend : EndsMeaningful (front ++ inserted)) (hquote : spell inserted = text ++ ['"'])
    (h : cutImportant (spell front ++ back) = (spell front ++ kept, important)) :
    cutImportant (spell (front ++ inserted) ++ back) =
      (spell (front ++ inserted) ++ kept, important) := by
  by_cases hlength : "important".length ≤ (dropTrailingTrivia back).length
  · rw [cutImportant_append_of_le hlexes hlength] at h
    rw [cutImportant_append_of_le hlexes' hlength]
    simp only [List.splitAt_eq] at h ⊢
    have hbefore := lexes_before hlexes ((dropTrailingTrivia back).length - "important".length)
    have hbefore' := lexes_before hlexes' ((dropTrailingTrivia back).length - "important".length)
    generalize (dropTrailingTrivia back).drop _ = keyword at h ⊢
    generalize (dropTrailingTrivia back).take _ = before at h hbefore hbefore' ⊢
    rw [dropTrailingTrivia_append hbefore' (.inr hend)]
    by_cases hnil : dropTrailingTrivia before = []
    · -- the last character is one of `front`, which stays, or the quote
      have hlast : (spell (front ++ inserted)).getLast? = some '"' := by
        rw [spell_append, hquote, ← List.append_assoc, List.getLast?_concat]
      rw [hnil, List.append_nil, if_neg (by rw [hlast]; simp)]
      split at h
      · next hmark =>
        have hle := length_dropTrailingTrivia_le hbefore hnil
        generalize dropTrailingTrivia (spell front ++ before) = marked at h hmark hle
        have hpos : 0 < marked.length := by
          rw [List.length_pos_iff]
          rintro rfl
          simp at hmark
        have hcut := congrArg List.length (Prod.mk.inj h).1
        rw [List.length_dropLast, List.length_append] at hcut
        omega
      · obtain ⟨hkept, rfl⟩ := Prod.mk.inj h
        rw [List.append_cancel_left hkept]
    · rw [dropTrailingTrivia_append hbefore (.inl hnil)] at h
      generalize dropTrailingTrivia before = meaningful at h hnil ⊢
      cases meaningful using List.reverseRecOn with
      | nil => exact absurd rfl hnil
      | append_singleton meaningful c =>
        simp only [← List.append_assoc, List.getLast?_concat, List.dropLast_concat] at h ⊢
        split at h
        · next hmark =>
          rw [if_pos hmark]
          obtain ⟨hkept, rfl⟩ := Prod.mk.inj h
          rw [List.append_cancel_left hkept]
        · next hmark =>
          rw [if_neg hmark]
          obtain ⟨hkept, rfl⟩ := Prod.mk.inj h
          rw [List.append_cancel_left hkept]
  · cases important with
    | true => exact absurd (le_length_of_cutImportant hlexes h) hlength
    | false =>
      rw [List.append_cancel_left (cutImportant_of_not_important h)]
      have hlast : spell (front ++ inserted) = (spell front ++ text) ++ ['"'] := by
        rw [spell_append, hquote, List.append_assoc]
      exact not_important_of_short hend hlexes' hlast (by decide +kernel) (by omega)

end Insert

/-! ### Trimming -/

open Text (trimEnd)

theorem trimEnd_cons (c : Char) (text : List Char) :
    trimEnd (c :: text) =
      if trimEnd text = [] then if isBlank c then [] else [c] else c :: trimEnd text := by
  rw [trimEnd]
  split
  · rename_i hnil
    rw [if_pos hnil]
  · rename_i hne
    rw [if_neg hne]

theorem trimEnd_append (front back : List Char) :
    trimEnd (front ++ back) =
      if trimEnd back = [] then trimEnd front else front ++ trimEnd back := by
  induction front with
  | nil =>
    rw [List.nil_append]
    split
    · rename_i hnil
      rw [hnil]
      rfl
    · rfl
  | cons c front ih =>
    rw [List.cons_append, trimEnd_cons, ih]
    split
    · rw [trimEnd_cons]
    · rename_i hback
      rw [if_neg (by simp [hback])]
      rfl

/-- A text that ends in a character that is not blank is left as it is. -/
theorem trimEnd_of_getLast? {text : List Char} {c : Char} (h : text.getLast? = some c)
    (hc : isBlank c = false) : trimEnd text = text := by
  obtain ⟨front, rfl⟩ := List.getLast?_eq_some_iff.mp h
  have hlast : trimEnd [c] = [c] := by simp [trimEnd, hc]
  rw [trimEnd_append, hlast, if_neg (by simp)]

theorem trimEnd_trimEnd (text : List Char) : trimEnd (trimEnd text) = trimEnd text := by
  cases hlast : (trimEnd text).getLast? with
  | none =>
    rw [List.getLast?_eq_none_iff.mp hlast]
    rfl
  | some c => exact trimEnd_of_getLast? hlast (Text.isBlank_getLast?_trimEnd text hlast)

/-- What is kept of a part of a text is kept of the whole text. -/
theorem trimEnd_prefix {front back : List Char} (h : trimEnd front = front) :
    ∃ kept, trimEnd (front ++ back) = front ++ kept := by
  rw [trimEnd_append]
  split
  · exact ⟨[], by rw [h, List.append_nil]⟩
  · exact ⟨_, rfl⟩

end WebFonts.Css
