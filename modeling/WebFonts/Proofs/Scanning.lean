import WebFonts.Proofs.Weaving

/-!
# A stylesheet that is read can be divided into lexemes

Every construct of the grammar is found by walking over lexemes, so a stylesheet that is read is a
sequence of lexemes from its beginning to its end (`Sheet.Reading.scans`). Such a sequence holds no
string that is never closed. A name with a line feed makes one when it is quoted, and a stylesheet
in which it stands is not read (`not_mem_of_scans`).
-/

namespace WebFonts.Css

open Cursor (Reads Scans)
open Rule (quote)

/-! ### Stretches of text -/

namespace Cursor

variable {cur stop last : Cursor} {text : List Char} {depth : Nat}

theorem scans_of_upTo {stops : List Char} (h : cur.upTo stops depth = .ok (text, stop)) :
    cur.Scans stop := by
  obtain ⟨lexemes, rfl, hlexes, -, -⟩ := passes_of_upTo h
  exact ⟨lexemes, reads_upTo h, hlexes⟩

/-- One character that always stands for itself. -/
theorem Scans.of_plain {next : Cursor} {c : Char} (h : Reads cur [c] next) (hescape : c ≠ '\\')
    (hslash : c ≠ '/') (hquote : isQuote c = false) : cur.Scans next :=
  .of_whole (.of_plain hescape hslash hquote) h

theorem scans_of_closeBlock {brace : Nat} (h : cur.closeBlock brace depth = .ok (text, last)) :
    cur.Scans last := by
  fun_induction closeBlock brace depth cur generalizing text last with
  | case1 => cases h; exact .refl _
  | case2 => cases h
  | case3 => cases h
  | case4 cur outer front start c after hfront tail last' htail ih =>
    cases h
    have hbrace : c ∈ ['{', '}'] := by
      rcases stop_of_upTo hfront with hend | ⟨d, rest, heq, hmem⟩
      · cases hend
      · cases heq
        exact hmem
    obtain ⟨hescape, hslash, hquote⟩ := plain_braces c hbrace
    exact ((scans_of_upTo hfront).trans (.of_plain ⟨rfl, rfl⟩ hescape hslash hquote)).trans
      (ih htail)
  | case5 => cases h

theorem scans_of_block (h : cur.block = .ok (text, last)) (hbrace : cur.rest.head? = some '{') :
    cur.Scans last := by
  unfold block fail at h
  split at h
  · next c rest hrest =>
    rw [hrest] at hbrace
    cases hbrace
    simp only [bind, Except.bind, pure, Except.pure] at h
    split at h <;> cases h
    rename_i hclose
    have hopen : Reads cur ['{'] (cur.pass ['{'] rest) := reads_pass hrest
    exact (Scans.of_plain hopen (by decide) (by decide) rfl).trans (scans_of_closeBlock hclose)
  · cases h

end Cursor

/-! ### Stylesheets -/

namespace Sheet

variable {place : Place} {cur next last : Cursor}

theorem Named.scans {name : String} (h : Named cur name next) : cur.Scans next := by
  obtain ⟨word, hreads, hwhole, -, -⟩ := h.recut
  exact .of_whole hwhole hreads

theorem Opens.scans {head : Head} {brace inside : Cursor} (h : Opens cur head brace inside) :
    cur.Scans inside := by
  have hopen {brace : Cursor} (h : Reads brace ['{'] inside) : brace.Scans inside :=
    .of_plain h (by decide) (by decide) rfl
  cases h with
  | atRule hname hprelude hbrace =>
    exact (hname.scans.trans (Cursor.scans_of_upTo hprelude)).trans (hopen hbrace)
  | rule _ hselector hbrace => exact (Cursor.scans_of_upTo hselector).trans (hopen hbrace)

theorem Leaf.scans {node : Node} (h : Leaf cur place node next) : cur.Scans next := by
  cases h with
  | @atRule _ _ stop _ _ _ hname hprelude _ =>
    refine (hname.scans.trans (Cursor.scans_of_upTo hprelude)).trans ?_
    cases hsemi : stop.char? ';' with
    | none => exact .refl stop
    | some last => exact .of_plain (Cursor.reads_char? hsemi) (by decide) (by decide) rfl
  | block hstatement hbrace hblock =>
    exact (Cursor.scans_of_upTo hstatement).trans (Cursor.scans_of_block hblock hbrace)
  | statement hstatement => exact Cursor.scans_of_upTo hstatement
  | declaration hstatement => exact Cursor.scans_of_upTo hstatement

theorem scans_of_skipMark? (h : skipMark? cur = some next) : cur.Scans next := by
  unfold skipMark? at h
  split at h <;> cases h
  all_goals
    next hrest =>
    exact .of_whole (.of_all (by decide)) (Cursor.reads_pass hrest)

/-- What is read of a stylesheet is a sequence of lexemes. -/
theorem Reading.scans {nodes : List Node} (h : Reading place cur nodes last) : cur.Scans last := by
  induction h with
  | nil place cur => exact .refl cur
  | separator h others ih =>
    obtain ⟨text, hseparator, hreads⟩ := Cursor.separator?_eq_ok_some_iff.mp h
    exact (Scans.of_whole hseparator.whole hreads).trans ih
  | semicolon h others ih => exact (Scans.of_plain h (by decide) (by decide) rfl).trans ih
  | mark h others ih => exact (scans_of_skipMark? h).trans ih
  | leaf hbegins h others ih => exact h.scans.trans ih
  | block hplace hbegins h inner hclose others ihInner ih =>
    have hend := Scans.of_plain hclose (by decide) (by decide) rfl
    exact ((h.scans.trans ihInner).trans hend).trans ih

end Sheet

/-! ### Strings that are never closed -/

/-- A quoted text that is read to the end of a lexeme holds no line feed. -/
theorem not_mem_of_scans {cur last : Cursor} {text : String} {rest : List Char}
    (h : cur.Scans last) (hlast : last.rest = []) (hrest : cur.rest = (quote text).toList ++ rest) :
    '\n' ∉ text.toList := by
  obtain ⟨lexemes, hreads, hlexes⟩ := h
  rw [toList_quote, List.append_assoc, List.cons_append] at hrest
  intro hbreak
  have hfail : cur.lexeme? = cur.fail .unterminatedString := by
    rw [Cursor.lexeme?_of_cons hrest (by decide) nofun, closeQuote?_of_break hbreak]
    rfl
  cases lexemes with
  | nil =>
    have hnil : cur.rest = [] := by rw [hreads.rest_eq, hlast, spell_nil, List.append_nil]
    rw [hnil] at hrest
    cases hrest
  | cons lexeme lexemes =>
    have hfirst : Reads cur lexeme.text (cur.pass lexeme.text (spell lexemes ++ last.rest)) :=
      Cursor.reads_pass (by rw [hreads.rest_eq, spell_cons, List.append_assoc])
    rw [Cursor.lexeme?_of_before hlexes.1 hfirst] at hfail
    cases hfail

end WebFonts.Css
