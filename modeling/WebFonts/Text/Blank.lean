/-!
# Blank characters and trimming

A character is blank when Unicode gives it the property White_Space. Preludes, unquoted addresses
and the ends of declarations are trimmed of blanks. The separators between the tokens of a
stylesheet are fewer: they are the four characters of `Char.isWhitespace`, which are all blank
(`isBlank_of_isWhitespace`).
-/

namespace WebFonts.Text

/-- Whether a character has the Unicode property White_Space. -/
def isBlank (c : Char) : Bool :=
  let n := c.toNat
  (0x09 ≤ n && n ≤ 0x0D) || n == 0x20 || n == 0x85 || n == 0xA0 || n == 0x1680
    || (0x2000 ≤ n && n ≤ 0x200A) || n == 0x2028 || n == 0x2029 || n == 0x202F
    || n == 0x205F || n == 0x3000

theorem isBlank_of_isWhitespace {c : Char} (h : c.isWhitespace = true) : isBlank c = true := by
  simp only [Char.isWhitespace, Bool.or_eq_true, decide_eq_true_eq] at h
  rcases h with ((rfl | rfl) | rfl) | rfl <;> decide

/-- Whether a character is one of the five blanks that may close an escape: tab, line feed,
form feed, carriage return and space. -/
def isEscapeBlank (c : Char) : Bool :=
  c == '\t' || c == '\n' || c == '\x0C' || c == '\r' || c == ' '

/-- The text without the blanks at its end. -/
def trimEnd : List Char → List Char
  | [] => []
  | c :: rest =>
    match trimEnd rest with
    | [] => if isBlank c then [] else [c]
    | kept => c :: kept

/-- The text without the blanks at its start. -/
def trimStart (text : List Char) : List Char :=
  text.dropWhile isBlank

/-- The text without the blanks at its two ends. -/
def trim (text : List Char) : List Char :=
  trimEnd (trimStart text)

/-- What `trimEnd` drops is a run of blanks. -/
theorem trimEnd_append (text : List Char) :
    ∃ blanks, trimEnd text ++ blanks = text ∧ blanks.all isBlank = true := by
  induction text with
  | nil => exact ⟨[], rfl, rfl⟩
  | cons c rest ih =>
    obtain ⟨blanks, happ, hall⟩ := ih
    unfold trimEnd
    split
    · rename_i hnil
      rw [hnil, List.nil_append] at happ
      subst happ
      split
      · rename_i hc
        exact ⟨c :: blanks, rfl, by simp [hc, hall]⟩
      · exact ⟨blanks, rfl, hall⟩
    · exact ⟨blanks, by simp [happ], hall⟩

/-- What `trimEnd` keeps does not end in a blank. -/
theorem isBlank_getLast?_trimEnd (text : List Char) {c : Char}
    (h : (trimEnd text).getLast? = some c) : isBlank c = false := by
  induction text with
  | nil => simp [trimEnd] at h
  | cons d rest ih =>
    unfold trimEnd at h
    split at h
    · split at h
      · simp at h
      · next hc => simp at h; subst h; simpa using hc
    · rename_i hne
      apply ih
      rw [List.getLast?_cons] at h
      cases hk : (trimEnd rest).getLast? with
      | none => exact absurd (by simpa using hk) hne
      | some last => simpa [hk] using h

end WebFonts.Text
