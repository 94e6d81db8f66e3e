import WebFonts.Css.Trivia
import WebFonts.Proofs.Lexing

/-!
# Separators and runs of them

`Separator` is the text of one blank or comment between tokens and `Trivia` a run of such texts.
`Cursor.skipTrivia_eq_ok_iff` says that skipping trivia passes over such a run up to a place that
is `AtToken`. Separators are whole lexemes, so that they stand in front of any text
(`Trivia.whole`).
-/

namespace WebFonts.Css

open Text (size)

/-- The text of one space, tab, line break or comment. -/
inductive Separator : List Char → Prop
  | blank {c : Char} (h : c.isWhitespace = true) : Separator [c]
  | comment {inside : List Char} (h : closeComment? inside = some (inside, [])) :
    Separator ('/' :: '*' :: inside)

/-- A run of separators. -/
inductive Trivia : List Char → Prop
  | nil : Trivia []
  | cons {separator trivia : List Char} (first : Separator separator) (others : Trivia trivia) :
    Trivia (separator ++ trivia)

/-- No separator stands at the beginning of a text, nor an unclosed comment. -/
def AtToken : List Char → Prop
  | [] => True
  | c :: rest => c.isWhitespace = false ∧ (c = '/' → rest.head? ≠ some '*')

/-- A character that is neither a blank nor a slash begins a token. -/
theorem atToken_of_ne {c : Char} {rest : List Char} (hblank : c.isWhitespace = false)
    (hslash : c ≠ '/') : AtToken (c :: rest) :=
  ⟨hblank, (absurd · hslash)⟩

theorem Separator.ne_nil {text : List Char} (h : Separator text) : text ≠ [] := by
  cases h <;> simp

theorem Trivia.append {front back : List Char} (hfront : Trivia front) (hback : Trivia back) :
    Trivia (front ++ back) := by
  induction hfront with
  | nil => exact hback
  | cons first others ih =>
    rw [List.append_assoc]
    exact .cons first ih

theorem Separator.trivia {text : List Char} (h : Separator text) : Trivia text := by
  have := Trivia.cons h .nil
  rwa [List.append_nil] at this

/-- Blanks are a run of separators. -/
theorem Trivia.of_whitespace {gap : List Char} (h : ∀ c ∈ gap, c.isWhitespace = true) :
    Trivia gap := by
  induction gap with
  | nil => exact .nil
  | cons c gap ih =>
    rw [List.forall_mem_cons] at h
    exact .cons (.blank h.1) (ih h.2)

/-! ### What is skipped -/

namespace Cursor

variable {cur next : Cursor}

theorem separator?_of_reads {text : List Char} (h : Separator text) (hreads : Reads cur text next) :
    cur.separator? = .ok (some next) := by
  obtain ⟨offset, rest⟩ := next
  obtain ⟨hrest, hoffset⟩ := hreads
  dsimp only at hrest hoffset
  subst hoffset
  cases h with
  | blank hblank =>
    rename_i c
    have hslash : c ≠ '/' := by rintro rfl; cases hblank
    unfold separator?
    rw [hrest]
    simp only [List.cons_append, List.nil_append]
    split <;> simp_all [pass]
  | comment hclose => simp [separator?, hrest, closeComment?_append hclose, pass]

/-- One blank or comment is read exactly where it stands. -/
theorem separator?_eq_ok_some_iff :
    cur.separator? = .ok (some next) ↔ ∃ text, Separator text ∧ Reads cur text next := by
  constructor
  · intro h
    unfold separator? fail at h
    split at h
    · rename_i hrest
      split at h <;> cases h
      rename_i hclose
      refine ⟨_, .comment ?_, reads_pass (by simp [hrest, append_of_closeComment? hclose])⟩
      have hinside := closeComment?_append hclose []
      rwa [List.append_nil] at hinside
    · rename_i hrest
      split at h <;> cases h
      exact ⟨_, .blank ‹_›, reads_pass hrest⟩
    · cases h
  · rintro ⟨text, h, hreads⟩
    exact separator?_of_reads h hreads

/-- None is read exactly where none begins. -/
theorem separator?_eq_ok_none_iff : cur.separator? = .ok none ↔ AtToken cur.rest := by
  unfold separator? fail
  split
  · rename_i hrest
    rw [hrest]
    refine ⟨fun h => ?_, fun h => absurd rfl (h.2 rfl)⟩
    split at h <;> cases h
  · rename_i c rest hcomment hrest
    rw [hrest]
    have hstar : c = '/' → rest.head? ≠ some '*' := by
      rintro rfl hstar
      cases rest with
      | nil => simp at hstar
      | cons d rest => exact hcomment rest rfl (by simpa using hstar)
    simpa [AtToken] using fun _ => hstar
  · rename_i hrest
    simp [hrest, AtToken]

theorem skipTrivia_of_separator? (h : cur.separator? = .ok (some next)) :
    cur.skipTrivia = next.skipTrivia := by
  rw [skipTrivia.eq_def]
  split <;> simp_all

theorem skipTrivia_of_error {fault : Fault} (h : cur.separator? = .error fault) :
    cur.skipTrivia = .error fault := by
  rw [skipTrivia.eq_def]
  split <;> simp_all

theorem skipTrivia_of_atToken (h : AtToken cur.rest) : cur.skipTrivia = .ok cur := by
  rw [← separator?_eq_ok_none_iff] at h
  rw [skipTrivia.eq_def]
  split <;> simp_all

theorem atToken_of_skipTrivia (h : cur.skipTrivia = .ok next) : AtToken next.rest := by
  fun_induction skipTrivia cur with
  | case1 => cases h
  | case2 cur hnone => cases h; exact separator?_eq_ok_none_iff.mp hnone
  | case3 cur between hsep ih => exact ih h

theorem trivia_of_skipTrivia (h : cur.skipTrivia = .ok next) :
    ∃ gap, Trivia gap ∧ Reads cur gap next := by
  fun_induction skipTrivia cur with
  | case1 => cases h
  | case2 => cases h; exact ⟨[], .nil, .refl _⟩
  | case3 cur between hsep ih =>
    obtain ⟨separator, hseparator, hfirst⟩ := separator?_eq_ok_some_iff.mp hsep
    obtain ⟨gap, hgap, hreads⟩ := ih h
    exact ⟨separator ++ gap, .cons hseparator hgap, hfirst.trans hreads⟩

theorem skipTrivia_of_trivia {gap : List Char} (hgap : Trivia gap) (hreads : Reads cur gap next) :
    cur.skipTrivia = next.skipTrivia := by
  induction hgap generalizing cur with
  | nil =>
    obtain ⟨hrest, hoffset⟩ := hreads
    obtain ⟨offset, rest⟩ := cur
    obtain ⟨offset', rest'⟩ := next
    simp_all
  | cons first others ih =>
    rename_i separator trivia
    have hfirst : Reads cur separator (cur.pass separator (trivia ++ next.rest)) :=
      reads_pass (by rw [hreads.rest_eq, List.append_assoc])
    have hothers : Reads (cur.pass separator (trivia ++ next.rest)) trivia next :=
      ⟨rfl, by rw [hreads.offset_eq, Text.size_append, pass, Nat.add_assoc]⟩
    rw [skipTrivia_of_separator? (separator?_of_reads first hfirst), ih hothers]

/-- Skipping trivia passes over a run of separators up to the next token. -/
theorem skipTrivia_eq_ok_iff :
    cur.skipTrivia = .ok next ↔ ∃ gap, Trivia gap ∧ Reads cur gap next ∧ AtToken next.rest := by
  constructor
  · intro h
    obtain ⟨gap, hgap, hreads⟩ := trivia_of_skipTrivia h
    exact ⟨gap, hgap, hreads, atToken_of_skipTrivia h⟩
  · rintro ⟨gap, hgap, hreads, htoken⟩
    rw [skipTrivia_of_trivia hgap hreads, skipTrivia_of_atToken htoken]

end Cursor

/-- A run of separators goes on behind any run of separators that it begins with. -/
theorem Trivia.split {front gap text rest : List Char} (hfront : Trivia front) (hgap : Trivia gap)
    (htoken : AtToken rest) (heq : front ++ text = gap ++ rest) :
    ∃ behind, Trivia behind ∧ gap = front ++ behind ∧ text = behind ++ rest := by
  have hwhole : (Cursor.mk 0 (gap ++ rest)).skipTrivia = .ok ⟨size gap, rest⟩ :=
    Cursor.skipTrivia_eq_ok_iff.mpr ⟨gap, hgap, ⟨rfl, by simp⟩, htoken⟩
  have hreads : Cursor.Reads ⟨0, gap ++ rest⟩ front ⟨size front, text⟩ := ⟨heq.symm, by simp⟩
  rw [Cursor.skipTrivia_of_trivia hfront hreads] at hwhole
  obtain ⟨behind, hbehind, hreadsBehind, -⟩ := Cursor.skipTrivia_eq_ok_iff.mp hwhole
  have htext : text = behind ++ rest := hreadsBehind.rest_eq
  refine ⟨behind, hbehind, ?_, htext⟩
  rw [htext, ← List.append_assoc] at heq
  exact (List.append_cancel_right heq).symm

/-! ### Separators as lexemes -/

/-- A separator is a lexeme that means nothing, whatever follows it. -/
theorem Separator.lexeme {text : List Char} (h : Separator text) :
    ∃ lexeme : Lexeme,
      lexeme.text = text ∧ lexeme.isTrivia = true ∧ ∀ rest, lexeme.Before rest := by
  cases h with
  | @blank c hblank =>
    refine ⟨.plain c, rfl, Text.isBlank_of_isWhitespace hblank, fun _ => .plain ?_ ?_ ?_⟩
    · rintro rfl; cases hblank
    · rw [Bool.eq_false_iff]
      intro hquote
      simp only [isQuote, Bool.or_eq_true, beq_iff_eq] at hquote
      rcases hquote with rfl | rfl <;> cases hblank
    · rintro rfl; cases hblank
  | comment hclose => exact ⟨.comment _, rfl, rfl, fun _ => .comment hclose⟩

/-- A run of separators consists of lexemes that mean nothing, whatever follows it. -/
theorem Trivia.lexemes {text : List Char} (h : Trivia text) :
    ∃ lexemes, spell lexemes = text ∧ (∀ rest, Lexes lexemes rest) ∧
      ∀ lexeme ∈ lexemes, lexeme.isTrivia = true := by
  induction h with
  | nil => exact ⟨[], rfl, fun _ => trivial, nofun⟩
  | cons first others ih =>
    obtain ⟨lexeme, rfl, hlexeme, hbefore⟩ := first.lexeme
    obtain ⟨lexemes, rfl, hlexes, htrivia⟩ := ih
    exact ⟨lexeme :: lexemes, rfl, fun rest => ⟨hbefore _, hlexes rest⟩,
      List.forall_mem_cons.mpr ⟨hlexeme, htrivia⟩⟩

/-- Lexemes that mean nothing are separators, as long as their blanks are. -/
theorem Lexes.trivia {lexemes : List Lexeme} {rest : List Char} (h : Lexes lexemes rest)
    (htrivia : ∀ lexeme ∈ lexemes, lexeme.isTrivia = true)
    (hblank : ∀ c ∈ spell lexemes, Text.isBlank c = true → c.isWhitespace = true) :
    Trivia (spell lexemes) := by
  induction lexemes with
  | nil => exact .nil
  | cons lexeme lexemes ih =>
    rw [List.forall_mem_cons] at htrivia
    rw [spell_cons, List.forall_mem_append] at hblank
    rw [spell_cons]
    obtain ⟨hfirst, hlexes⟩ := h
    have hothers := ih hlexes htrivia.2 hblank.2
    generalize spell lexemes ++ rest = behind at hfirst
    cases hfirst with
    | quoted | escape | backslash => cases htrivia.1
    | comment hclose => exact .cons (.comment hclose) hothers
    | plain => exact .cons (.blank (hblank.1 _ (List.mem_singleton_self _) htrivia.1)) hothers

theorem Separator.whole {text : List Char} (h : Separator text) : Whole text := by
  obtain ⟨lexeme, rfl, -, hbefore⟩ := h.lexeme
  exact .of_lexeme hbefore

/-- A run of separators is a sequence of lexemes, whatever follows it. -/
theorem Trivia.whole {text : List Char} (h : Trivia text) : Whole text := by
  obtain ⟨lexemes, hspell, hlexes, -⟩ := h.lexemes
  exact ⟨lexemes, hspell, hlexes⟩

end WebFonts.Css
