import WebFonts.Css.Token
import WebFonts.Proofs.Trivia
import WebFonts.Rule.Quoted

/-!
# Quoted text reads back

A text that `Rule.quote` writes as a string is read back as that text, wherever it stands
(`Cursor.piece?_quote`), unless it holds a line feed: a line feed is not escaped, and a string that
holds one is never closed (`closeQuote?_of_break`).
-/

namespace WebFonts.Css

open Rule (escape quote)

/-! ### Characters of a quoted text -/

theorem escape_of_ne {c : Char} (hquote : c ≠ '"') (hbackslash : c ≠ '\\') : escape c = [c] := by
  simp [escape, hquote, hbackslash]

theorem toList_quote (text : String) :
    (quote text).toList = '"' :: text.toList.flatMap escape ++ ['"'] :=
  String.toList_ofList

/-- The end of a quoted text is found if the text holds no line feed. -/
theorem closeQuote?_escape {text : List Char} (hbreak : '\n' ∉ text) (rest : List Char) :
    closeQuote? '"' (text.flatMap escape ++ '"' :: rest) =
      some (text.flatMap escape ++ ['"'], rest) := by
  induction text with
  | nil => rfl
  | cons c text ih =>
    rw [List.mem_cons, not_or] at hbreak
    obtain ⟨hc, hbreak⟩ := hbreak
    rw [List.flatMap_cons, List.append_assoc]
    by_cases hescaped : c = '"' ∨ c = '\\'
    · have hescape : escape c = ['\\', c] := by rcases hescaped with rfl | rfl <;> rfl
      rw [hescape, List.cons_append, List.cons_append, List.nil_append, closeQuote?, ih hbreak]
      rfl
    · rw [not_or] at hescaped
      rw [escape_of_ne hescaped.1 hescaped.2, List.cons_append, List.nil_append,
        closeQuote?_cons hescaped.2 (Ne.symm hc), ih hbreak, if_neg (by simpa using hescaped.1)]
      rfl

/-- A quoted text with a line feed has no end. -/
theorem closeQuote?_of_break {text : List Char} (hbreak : '\n' ∈ text) (rest : List Char) :
    closeQuote? '"' (text.flatMap escape ++ rest) = none := by
  induction text with
  | nil => cases hbreak
  | cons c text ih =>
    rw [List.flatMap_cons, List.append_assoc]
    by_cases hescaped : c = '"' ∨ c = '\\'
    · have hescape : escape c = ['\\', c] := by rcases hescaped with rfl | rfl <;> rfl
      have hne : '\n' ≠ c := by rcases hescaped with rfl | rfl <;> decide
      rw [hescape, List.cons_append, List.cons_append, List.nil_append, closeQuote?,
        ih ((List.mem_cons.mp hbreak).resolve_left hne)]
      rfl
    · rw [not_or] at hescaped
      rw [escape_of_ne hescaped.1 hescaped.2, List.cons_append, List.nil_append]
      by_cases hc : c = '\n'
      · subst hc
        cases text.flatMap escape ++ rest <;> rfl
      · rw [closeQuote?_cons hescaped.2 hc, if_neg (by simpa using hescaped.1),
          ih ((List.mem_cons.mp hbreak).resolve_left (Ne.symm hc))]
        rfl

/-- Resolving the escapes of a quoted text gives the text back. -/
theorem unescape_escape (text : List Char) : unescape (text.flatMap escape) = text := by
  induction text with
  | nil => rw [List.flatMap_nil, unescape]
  | cons c text ih =>
    rw [List.flatMap_cons]
    by_cases hescaped : c = '"' ∨ c = '\\'
    · have hescape : escape c = ['\\', c] := by rcases hescaped with rfl | rfl <;> rfl
      have hdigits : escapeDigits (c :: text.flatMap escape) = [] := by
        rcases hescaped with rfl | rfl <;> rfl
      have hbreak : c ≠ '\n' := by rcases hescaped with rfl | rfl <;> decide
      rw [hescape, List.cons_append, List.cons_append, List.nil_append, unescape, hdigits,
        List.isEmpty_nil, if_pos rfl, ih]
      exact hbreak
    · rw [not_or] at hescaped
      rw [escape_of_ne hescaped.1 hescaped.2, List.cons_append, List.nil_append, unescape, ih]
      exact fun heq => hescaped.2 heq

theorem contents_quote (text : String) : contents (quote text).toList = text := by
  rw [contents, toList_quote, List.cons_append, List.drop_one, List.tail_cons,
    List.dropLast_concat, unescape_escape, String.ofList_toList]

/-! ### Quoted text as a lexeme and as a piece -/

section Quote

variable {text : String} (hbreak : '\n' ∉ text.toList)

include hbreak

theorem before_quote (rest : List Char) : (Lexeme.quoted (quote text).toList).Before rest := by
  rw [toList_quote, List.cons_append]
  exact .quoted rfl (closeQuote?_escape hbreak [])

theorem Cursor.quoted?_quote {cur : Cursor} {rest : List Char}
    (hrest : cur.rest = (quote text).toList ++ rest) :
    cur.quoted? = some (text, cur.pass (quote text).toList rest) := by
  have hlexeme : cur.lexeme? = .ok (some (.quoted (quote text).toList,
      cur.pass (quote text).toList rest)) :=
    lexeme?_of_before (before_quote hbreak rest) (reads_pass hrest)
  rw [quoted?, hlexeme]
  simp only [contents_quote]

/-- A quoted text is read back as a string. -/
theorem Cursor.piece?_quote {cur : Cursor} {rest : List Char}
    (hrest : cur.rest = (quote text).toList ++ rest) :
    cur.piece? = .ok (some (.token (.string text), cur.pass (quote text).toList rest)) := by
  have hquoted := quoted?_quote hbreak hrest
  rw [toList_quote] at hrest
  unfold piece?
  rw [hrest]
  simp only [List.cons_append]
  rw [if_pos (by decide), hquoted]

end Quote

theorem atToken_quote (text : String) (rest : List Char) :
    AtToken ((quote text).toList ++ rest) := by
  rw [toList_quote]
  exact atToken_of_ne (by decide) (by decide)

end WebFonts.Css
