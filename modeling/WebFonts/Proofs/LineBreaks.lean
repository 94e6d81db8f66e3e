import Mathlib.Data.List.Infix
import Mathlib.Data.List.TakeWhile
import WebFonts.Css.Extent
import WebFonts.Css.Token
import WebFonts.Proofs.Pieces
import WebFonts.Proofs.Shifting

/-!
# Line breaks of two characters

`withReturns` puts a carriage return in front of every line feed of a text. Where no backslash
stands directly in front of a line feed (`PlainBreaks`), the readers of stylesheet text read such a
text alike: each gives the same result with its texts changed in the same way and its offsets moved.
For lexemes and separators this is an equation (`Cursor.lexeme?_returned`,
`Cursor.skipTrivia_returned`); a piece is the same but for the address in it
(`Cursor.piece?_returned`).

The function that moves the offsets is any that counts the carriage returns of the text ahead
(`Cursor.MovedBy`), such as `Text.returnedOffset` at the start of a text. A line feed outside
strings and comments becomes two lexemes, and two separators; readers that walk over lexemes or
separators pass over both in two steps.
-/

namespace WebFonts

namespace Text

/-! ### Texts with carriage returns -/

/-- The text with a carriage return in front of every line feed. -/
def withReturns (text : List Char) : List Char :=
  text.flatMap fun c => if c = '\n' then ['\r', '\n'] else [c]

@[simp] theorem withReturns_nil : withReturns [] = [] := rfl

@[simp] theorem withReturns_break (rest : List Char) :
    withReturns ('\n' :: rest) = '\r' :: '\n' :: withReturns rest := rfl

theorem withReturns_cons {c : Char} (h : c ≠ '\n') (rest : List Char) :
    withReturns (c :: rest) = c :: withReturns rest := by
  rw [withReturns, List.flatMap_cons, if_neg h]
  rfl

@[simp] theorem withReturns_append (front back : List Char) :
    withReturns (front ++ back) = withReturns front ++ withReturns back :=
  List.flatMap_append

/-- A text without line feeds stays as it is. -/
theorem withReturns_eq_self {text : List Char} (h : '\n' ∉ text) : withReturns text = text := by
  induction text with
  | nil => rfl
  | cons c rest ih =>
    rw [List.mem_cons, not_or] at h
    rw [withReturns_cons (Ne.symm h.1), ih h.2]

@[simp] theorem withReturns_eq_nil {text : List Char} : withReturns text = [] ↔ text = [] := by
  cases text with
  | nil => simp
  | cons c rest =>
    by_cases h : c = '\n'
    · subst h; simp
    · simp [withReturns_cons h]

theorem size_withReturns (text : List Char) :
    size (withReturns text) = size text + text.count '\n' := by
  induction text with
  | nil => rfl
  | cons c rest ih =>
    by_cases h : c = '\n'
    · subst h
      have hreturn : '\r'.utf8Size = 1 := rfl
      simp only [withReturns_break, size_cons, ih, List.count_cons_self, hreturn]
      omega
    · simp only [withReturns_cons h, size_cons, ih, List.count_cons_of_ne h]
      omega

/-- An offset in a text, moved by the carriage returns that are put in front of it. -/
def returnedOffset (text : List Char) (offset : Nat) : Nat :=
  offset + (cut offset text).1.count '\n'

theorem returnedOffset_size (front rest : List Char) :
    returnedOffset (front ++ rest) (size front) = size (withReturns front) := by
  rw [returnedOffset, cut_size_append, size_withReturns]

theorem returnedOffset_zero (text : List Char) : returnedOffset text 0 = 0 :=
  returnedOffset_size [] text

/-- A text begins with the same character, unless it begins with a line feed. -/
theorem head?_withReturns {text : List Char} (h : text.head? ≠ some '\n') :
    (withReturns text).head? = text.head? := by
  cases text with
  | nil => rfl
  | cons c rest =>
    rw [withReturns_cons (by simpa using h)]
    rfl

/-- A text begins with a given character, no part of a line break, exactly if it did. -/
theorem head?_withReturns_eq_some_iff {text : List Char} {c : Char} (hbreak : c ≠ '\n')
    (hreturn : c ≠ '\r') : (withReturns text).head? = some c ↔ text.head? = some c := by
  by_cases h : text.head? = some '\n'
  · obtain ⟨rest, rfl⟩ := List.head?_eq_some_iff.mp h
    simp [Ne.symm hbreak, Ne.symm hreturn]
  · rw [head?_withReturns h]

theorem head?_withReturns_ne {text : List Char} {c : Char} (hbreak : c ≠ '\n')
    (hreturn : c ≠ '\r') (h : ∀ rest, text ≠ c :: rest) : (withReturns text).head? ≠ some c := by
  rw [ne_eq, head?_withReturns_eq_some_iff hbreak hreturn, List.head?_eq_some_iff]
  exact fun ⟨rest, hrest⟩ => h rest hrest

/-- A text begins with nothing that it did not begin with, if that holds no line break. -/
theorem prefix_of_withReturns {front text : List Char} (hbreak : '\n' ∉ front)
    (hreturn : '\r' ∉ front) (h : front <+: withReturns text) : front <+: text := by
  induction front generalizing text with
  | nil => exact List.nil_prefix
  | cons c front ih =>
    rw [List.mem_cons, not_or] at hbreak hreturn
    cases text with
    | nil => cases List.prefix_nil.mp h
    | cons d text =>
      by_cases hd : d = '\n'
      · subst hd
        rw [withReturns_break, List.cons_prefix_cons] at h
        exact absurd h.1.symm hreturn.1
      · rw [withReturns_cons hd, List.cons_prefix_cons] at h
        exact List.cons_prefix_cons.mpr ⟨h.1, ih hbreak.2 hreturn.2 h.2⟩

/-- A text ends with the same character. -/
theorem getLast?_withReturns (text : List Char) :
    (withReturns text).getLast? = text.getLast? := by
  induction text with
  | nil => rfl
  | cons c rest ih =>
    by_cases h : c = '\n'
    · subst h
      simp only [withReturns_break, List.getLast?_cons, ih]
      cases rest.getLast? <;> rfl
    · rw [withReturns_cons h, List.getLast?_cons, List.getLast?_cons, ih]

/-- A part without line feeds at the end of a text was there before. -/
theorem exists_append_of_withReturns {text front back : List Char}
    (h : withReturns text = front ++ back) (hback : '\n' ∉ back) :
    ∃ front', text = front' ++ back ∧ withReturns front' = front := by
  induction text using List.reverseRecOn generalizing back with
  | nil =>
    obtain ⟨rfl, rfl⟩ := List.append_eq_nil_iff.mp h.symm
    exact ⟨[], rfl, rfl⟩
  | append_singleton text c ih =>
    cases back using List.reverseRecOn with
    | nil => exact ⟨text ++ [c], (List.append_nil _).symm, by rw [h, List.append_nil]⟩
    | append_singleton back d =>
      have hc : c ≠ '\n' := by
        rintro rfl
        have hlast := congrArg List.getLast? h
        rw [getLast?_withReturns, ← List.append_assoc, List.getLast?_concat,
          List.getLast?_concat, Option.some.injEq] at hlast
        exact hback (hlast ▸ List.mem_append_right _ (List.mem_singleton_self _))
      rw [withReturns_append, withReturns_cons hc, withReturns_nil, ← List.append_assoc] at h
      obtain ⟨hinit, hlast⟩ := List.append_inj' h rfl
      obtain ⟨front', rfl, hfront⟩ := ih hinit fun hmem => hback (List.mem_append_left _ hmem)
      exact ⟨front', by rw [hlast, List.append_assoc], hfront⟩

/-! ### Blanks and trimming -/

section While

variable {p : Char → Bool}

theorem dropWhile_withReturns (h : p '\n' = p '\r') (text : List Char) :
    (withReturns text).dropWhile p = withReturns (text.dropWhile p) := by
  induction text with
  | nil => rfl
  | cons c rest ih =>
    by_cases hc : c = '\n'
    · subst hc
      cases hp : p '\r' <;> simp [h, hp, ih]
    · cases hp : p c <;> simp [withReturns_cons hc, hp, ih]

theorem takeWhile_withReturns (h : p '\n' = p '\r') (text : List Char) :
    (withReturns text).takeWhile p = withReturns (text.takeWhile p) := by
  induction text with
  | nil => rfl
  | cons c rest ih =>
    by_cases hc : c = '\n'
    · subst hc
      cases hp : p '\r' <;> simp [h, hp, ih]
    · cases hp : p c <;> simp [withReturns_cons hc, hp, ih]

end While

theorem trimEnd_withReturns (text : List Char) :
    trimEnd (withReturns text) = withReturns (trimEnd text) := by
  induction text with
  | nil => rfl
  | cons c rest ih =>
    have hbreak : isBlank '\n' = true := rfl
    have hreturn : isBlank '\r' = true := rfl
    by_cases hc : c = '\n'
    · subst hc
      cases hkept : trimEnd rest <;> simp [trimEnd, ih, hkept, hbreak, hreturn]
    · have hlast : withReturns (if isBlank c then [] else [c]) = if isBlank c then [] else [c] := by
        split
        · rfl
        · exact withReturns_cons hc []
      cases hkept : trimEnd rest <;> simp [trimEnd, withReturns_cons hc, ih, hkept, hlast]

theorem trimStart_withReturns (text : List Char) :
    trimStart (withReturns text) = withReturns (trimStart text) :=
  dropWhile_withReturns rfl text

/-! ### Line breaks that no backslash protects -/

/-- No backslash stands directly in front of a line feed. -/
def PlainBreaks (text : List Char) : Prop :=
  ¬ ['\\', '\n'] <:+: text

instance (text : List Char) : Decidable (PlainBreaks text) :=
  inferInstanceAs (Decidable (¬ ['\\', '\n'] <:+: text))

namespace PlainBreaks

variable {text part : List Char}

theorem of_part (h : PlainBreaks text) (hpart : part <:+: text) : PlainBreaks part :=
  fun hin => h (hin.trans hpart)

theorem tail {c : Char} {rest : List Char} (h : PlainBreaks (c :: rest)) : PlainBreaks rest :=
  h.of_part (List.suffix_cons c rest).isInfix

theorem ne_break {c : Char} {rest : List Char} (h : PlainBreaks ('\\' :: c :: rest)) :
    c ≠ '\n' := by
  rintro rfl
  exact h (List.prefix_append ['\\', '\n'] rest).isInfix

end PlainBreaks

end Text

namespace Css

open Text (size withReturns withReturns_cons PlainBreaks)

variable {α β : Type} {move : Nat → Nat}

/-! ### What is moved -/

/-- The same fault at the offset that its offset is moved to. -/
def Fault.relocate (move : Nat → Nat) (fault : Fault) : Fault :=
  ⟨fault.cause, move fault.offset⟩

/-- The outcome of reading a text with other offsets: the result changed, or the fault moved. -/
def relocated (move : Nat → Nat) (change : α → β) : Except Fault α → Except Fault β
  | .ok result => .ok (change result)
  | .error fault => .error (fault.relocate move)

@[simp] theorem relocated_ok (change : α → β) (result : α) :
    relocated move change (.ok result) = .ok (change result) := rfl

theorem toOption_relocated (change : α → β) (outcome : Except Fault α) :
    (relocated move change outcome).toOption = outcome.toOption.map change := by
  cases outcome <;> rfl

namespace Cursor

variable {cur next : Cursor}

/-- The text with its carriage returns, at the offset that its offset is moved to. -/
def returned (move : Nat → Nat) (cur : Cursor) : Cursor :=
  ⟨move cur.offset, withReturns cur.rest⟩

@[simp] theorem returned_offset : (cur.returned move).offset = move cur.offset := rfl

@[simp] theorem returned_rest : (cur.returned move).rest = withReturns cur.rest := rfl

/-- Offsets in the text ahead are moved by the carriage returns in front of them, and all its line
breaks are plain. -/
structure MovedBy (move : Nat → Nat) (cur : Cursor) : Prop where
  plain : PlainBreaks cur.rest
  move_eq : ∀ front, front <+: cur.rest →
    move (cur.offset + size front) = move cur.offset + size (withReturns front)

/-- What is read of a text with carriage returns was there before, if it holds no line break. -/
theorem reads_of_returned {taken : List Char} (hbreak : '\n' ∉ taken) (hreturn : '\r' ∉ taken)
    (h : Reads (cur.returned move) taken next) : ∃ last, Reads cur taken last := by
  obtain ⟨rest, hrest⟩ := Text.prefix_of_withReturns hbreak hreturn ⟨next.rest, h.rest_eq.symm⟩
  exact ⟨_, reads_pass hrest.symm⟩

theorem returned_start (text : List Char) :
    (start text).returned (Text.returnedOffset text) = start (withReturns text) := by
  rw [returned, start, Text.returnedOffset_zero, start]

namespace MovedBy

theorem start {text : List Char} (h : PlainBreaks text) :
    (Cursor.start text).MovedBy (Text.returnedOffset text) where
  plain := h
  move_eq := by
    rintro front ⟨rest, rfl⟩
    rw [Cursor.start, Nat.zero_add, Text.returnedOffset_size, Text.returnedOffset_zero,
      Nat.zero_add]

theorem of_reads (h : cur.MovedBy move) {taken : List Char} (hreads : Reads cur taken next) :
    next.MovedBy move where
  plain := h.plain.of_part (hreads.rest_eq ▸ List.suffix_append taken next.rest).isInfix
  move_eq front hfront := by
    have hboth : taken ++ front <+: cur.rest :=
      hreads.rest_eq ▸ (List.prefix_append_right_inj taken).mpr hfront
    have hmove := h.move_eq taken (hreads.rest_eq ▸ List.prefix_append taken next.rest)
    have hmove' := h.move_eq (taken ++ front) hboth
    simp only [Text.withReturns_append, Text.size_append] at hmove'
    rw [hreads.offset_eq, Nat.add_assoc, hmove', hmove, Nat.add_assoc]

/-- A part of the text at its beginning. -/
theorem of_prefix (h : cur.MovedBy move) {front : List Char} (hfront : front <+: cur.rest) :
    MovedBy move ⟨cur.offset, front⟩ :=
  ⟨h.plain.of_part hfront.isInfix, fun part hpart => h.move_eq part (hpart.trans hfront)⟩

theorem returned_pass (h : cur.MovedBy move) (taken rest : List Char)
    (hrest : cur.rest = taken ++ rest) :
    (cur.returned move).pass (withReturns taken) (withReturns rest) =
      (cur.pass taken rest).returned move := by
  have hmove := h.move_eq taken (hrest ▸ List.prefix_append taken rest)
  simp only [pass, returned, hmove]

theorem reads_returned (h : cur.MovedBy move) {taken : List Char} (hreads : Reads cur taken next) :
    Reads (cur.returned move) (withReturns taken) (next.returned move) where
  rest_eq := by rw [returned_rest, hreads.rest_eq, Text.withReturns_append, returned_rest]
  offset_eq := by
    rw [returned_offset, hreads.offset_eq]
    exact h.move_eq taken (hreads.rest_eq ▸ List.prefix_append taken next.rest)

/-- A part without line feeds is passed over as it is. -/
theorem returned_pass_of_notMem (h : cur.MovedBy move) (taken rest : List Char)
    (hrest : cur.rest = taken ++ rest) (htaken : '\n' ∉ taken) :
    (cur.returned move).pass taken (withReturns rest) = (cur.pass taken rest).returned move := by
  rw [← h.returned_pass taken rest hrest, Text.withReturns_eq_self htaken]

theorem reads_returned_of_notMem (h : cur.MovedBy move) {taken : List Char}
    (hreads : Reads cur taken next) (htaken : '\n' ∉ taken) :
    Reads (cur.returned move) taken (next.returned move) := by
  have hreturned := h.reads_returned hreads
  rwa [Text.withReturns_eq_self htaken] at hreturned

end MovedBy

end Cursor

/-! ### Strings and comments -/

theorem ne_return_of_isQuote {quote : Char} (h : isQuote quote = true) :
    quote ≠ '\n' ∧ quote ≠ '\r' := by
  constructor <;> (rintro rfl; cases h)

/-- A string is closed at the same place. -/
theorem closeQuote?_withReturns {quote : Char} {text : List Char} (hquote : isQuote quote = true)
    (h : PlainBreaks text) :
    closeQuote? quote (withReturns text) =
      (closeQuote? quote text).map fun (inside, after) => (inside, withReturns after) := by
  fun_induction closeQuote? quote text with
  | case1 => rfl
  | case2 => rfl
  | case3 c rest ih =>
    rw [withReturns_cons (by decide), withReturns_cons h.ne_break, closeQuote?, ih h.tail.tail]
    cases closeQuote? quote rest <;> rfl
  | case4 rest =>
    rw [Text.withReturns_break, closeQuote?_cons (by decide) (by decide),
      if_neg (by simpa using (ne_return_of_isQuote hquote).2.symm)]
    rfl
  | case5 c rest hlone hescape hbreak hclose =>
    have hc : c ≠ '\\' := by rintro rfl; cases rest <;> simp_all
    have hn : c ≠ '\n' := fun heq => hbreak heq
    rw [withReturns_cons hn, closeQuote?_cons hc hn, if_pos hclose]
    rfl
  | case6 c rest hlone hescape hbreak hclose ih =>
    have hc : c ≠ '\\' := by rintro rfl; cases rest <;> simp_all
    have hn : c ≠ '\n' := fun heq => hbreak heq
    rw [withReturns_cons hn, closeQuote?_cons hc hn, if_neg hclose, ih h.tail]
    cases closeQuote? quote rest <;> rfl

/-- No line feed stands in a string. -/
theorem notMem_of_closeQuote? {quote : Char} {text inside after : List Char}
    (h : PlainBreaks text) (hclose : closeQuote? quote text = some (inside, after)) :
    '\n' ∉ inside := by
  fun_induction closeQuote? quote text generalizing inside after with
  | case1 => cases hclose
  | case2 => cases hclose
  | case3 c rest ih =>
    obtain ⟨⟨tail, last⟩, htail, heq⟩ := Option.map_eq_some_iff.mp hclose
    cases heq
    simp [h.ne_break.symm, ih h.tail.tail htail]
  | case4 => cases hclose
  | case5 c rest hlone hescape hbreak hquote =>
    cases hclose
    simpa using fun heq => hbreak heq.symm
  | case6 c rest hlone hescape hbreak hquote ih =>
    obtain ⟨⟨tail, last⟩, htail, heq⟩ := Option.map_eq_some_iff.mp hclose
    cases heq
    simpa [ih h.tail htail] using fun heq => hbreak heq.symm

theorem closeComment?_withReturns (text : List Char) :
    closeComment? (withReturns text) =
      (closeComment? text).map fun (inside, after) => (withReturns inside, withReturns after) := by
  fun_induction closeComment? text with
  | case1 => rfl
  | case2 rest => rfl
  | case3 c rest hend ih =>
    by_cases hc : c = '\n'
    · subst hc
      rw [Text.withReturns_break, closeComment?_cons (absurd · (by decide)),
        closeComment?_cons (absurd · (by decide)), ih]
      cases closeComment? rest <;> rfl
    · have hslash (hstar : c = '*') : (withReturns rest).head? ≠ some '/' :=
        Text.head?_withReturns_ne (by decide) (by decide) fun tail => hend tail hstar
      rw [withReturns_cons hc, closeComment?_cons hslash, ih]
      cases closeComment? rest <;> simp [withReturns_cons hc]

/-! ### Lexemes and trivia -/

/-- The lexeme with the carriage returns of its text. A lexeme of one character is kept. -/
def Lexeme.returned : Lexeme → Lexeme
  | quoted text => quoted (withReturns text)
  | comment text => comment (withReturns text)
  | lexeme => lexeme

namespace Cursor

variable {cur next : Cursor}

/-- A comment is passed over with the carriage returns in it. -/
theorem MovedBy.returned_pass_of_comment {rest inside after : List Char} (h : cur.MovedBy move)
    (hrest : cur.rest = '/' :: '*' :: rest) (hclose : closeComment? rest = some (inside, after)) :
    (cur.returned move).pass ('/' :: '*' :: withReturns inside) (withReturns after) =
      (cur.pass ('/' :: '*' :: inside) after).returned move :=
  h.returned_pass ('/' :: '*' :: inside) after (by simp [hrest, append_of_closeComment? hclose])

/-- A cursor at a line feed stands at a carriage return in front of it, which is passed over
alone. -/
theorem lexeme?_of_break {rest : List Char} (h : cur.MovedBy move)
    (hrest : cur.rest = '\n' :: rest) :
    ∃ between : Cursor,
      (cur.returned move).lexeme? = .ok (some (.plain '\r', between)) ∧
      between.lexeme? = .ok (some (.plain '\n', (cur.pass ['\n'] rest).returned move)) := by
  have hreturned : (cur.returned move).rest = '\r' :: '\n' :: withReturns rest := by
    rw [returned_rest, hrest, Text.withReturns_break]
  have hpass := h.returned_pass ['\n'] rest hrest
  refine ⟨(cur.returned move).pass ['\r'] ('\n' :: withReturns rest), ?_, ?_⟩
  · rw [lexeme?_of_cons hreturned (by decide) (absurd · (by decide))]
    rfl
  · rw [lexeme?_of_cons (c := '\n') rfl (by decide) (absurd · (by decide)), ← hpass]
    rfl

theorem lexeme?_returned (h : cur.MovedBy move) (hbreak : cur.rest.head? ≠ some '\n') :
    (cur.returned move).lexeme? =
      relocated move (Option.map (Prod.map Lexeme.returned (returned move))) cur.lexeme? := by
  have hplain := h.plain
  conv_rhs => unfold lexeme?
  split
  · rename_i hrest
    simp [lexeme?, hrest]
  · rename_i rest hrest
    have hreturned : (cur.returned move).rest = '/' :: '*' :: withReturns rest := by
      rw [returned_rest, hrest]
      rfl
    rw [lexeme?, hreturned]
    simp only [closeComment?_withReturns]
    cases hclose : closeComment? rest with
    | none => rfl
    | some found =>
      obtain ⟨inside, after⟩ := found
      have htext : withReturns ('/' :: '*' :: inside) = '/' :: '*' :: withReturns inside := rfl
      simp [Lexeme.returned, htext, h.returned_pass_of_comment hrest hclose]
  · rename_i c rest hrest
    have hc : c ≠ '\n' := PlainBreaks.ne_break (hrest ▸ hplain)
    have hreads : Reads cur ['\\', c] (cur.pass ['\\', c] rest) := reads_pass hrest
    have hreturned := h.reads_returned_of_notMem hreads (by simp [hc.symm])
    exact lexeme?_of_before (.escape c _) hreturned
  · rename_i hrest
    have hreads : Reads cur ['\\'] (cur.pass ['\\'] []) := reads_pass hrest
    exact lexeme?_of_before .backslash (h.reads_returned_of_notMem hreads (by decide))
  · rename_i c rest hcomment hescape hlone hrest
    have hc : c ≠ '\n' := by rintro rfl; simp [hrest] at hbreak
    have hslash : c ≠ '\\' := by rintro rfl; cases rest <;> simp_all
    have hstar (hopen : c = '/') : (withReturns rest).head? ≠ some '*' :=
      Text.head?_withReturns_ne (by decide) (by decide) fun tail => hcomment tail hopen
    have hreturned : (cur.returned move).rest = c :: withReturns rest := by
      rw [returned_rest, hrest, withReturns_cons hc]
    rw [lexeme?_of_cons hreturned hslash hstar]
    split
    · rename_i hquote
      rw [hrest] at hplain
      rw [closeQuote?_withReturns hquote hplain.tail]
      cases hclose : closeQuote? c rest with
      | none => rfl
      | some found =>
        obtain ⟨inside, after⟩ := found
        have hpass := h.returned_pass (c :: inside) after
          (by simp [hrest, append_of_closeQuote? hclose])
        have htext : withReturns (c :: inside) = c :: inside :=
          Text.withReturns_eq_self (by simp [hc.symm, notMem_of_closeQuote? hplain.tail hclose])
        rw [htext] at hpass
        simp [hpass, Lexeme.returned, htext]
    · rw [h.returned_pass_of_notMem [c] rest hrest (by simp [hc.symm])]
      rfl

/-! ### Trivia -/

theorem separator?_of_break {rest : List Char} (h : cur.MovedBy move)
    (hrest : cur.rest = '\n' :: rest) :
    ∃ between : Cursor, (cur.returned move).separator? = .ok (some between) ∧
      between.separator? = .ok (some ((cur.pass ['\n'] rest).returned move)) := by
  have hpass := h.returned_pass ['\n'] rest hrest
  have hreturned : (cur.returned move).rest = ['\r'] ++ '\n' :: withReturns rest := by
    rw [returned_rest, hrest, Text.withReturns_break]
    rfl
  refine ⟨_, separator?_of_reads (.blank (by decide)) (reads_pass hreturned), ?_⟩
  rw [← hpass]
  exact separator?_of_reads (.blank (by decide)) ⟨rfl, by simp [pass]; omega⟩

theorem separator?_returned (h : cur.MovedBy move) (hbreak : cur.rest.head? ≠ some '\n') :
    (cur.returned move).separator? =
      relocated move (Option.map (returned move)) cur.separator? := by
  conv_rhs => unfold separator?
  split
  · rename_i rest hrest
    have hreturned : (cur.returned move).rest = '/' :: '*' :: withReturns rest := by
      rw [returned_rest, hrest]
      rfl
    rw [separator?, hreturned]
    simp only [closeComment?_withReturns]
    cases hclose : closeComment? rest with
    | none => rfl
    | some found =>
      obtain ⟨inside, after⟩ := found
      simp [h.returned_pass_of_comment hrest hclose]
  · rename_i c rest hcomment hrest
    have hc : c ≠ '\n' := by rintro rfl; simp [hrest] at hbreak
    cases hblank : c.isWhitespace with
    | true =>
      have hreads : Reads cur [c] (cur.pass [c] rest) := reads_pass hrest
      exact separator?_of_reads (.blank hblank)
        (h.reads_returned_of_notMem hreads (by simp [hc.symm]))
    | false =>
      refine separator?_eq_ok_none_iff.mpr ?_
      rw [returned_rest, hrest, withReturns_cons hc]
      exact ⟨hblank, fun hopen =>
        Text.head?_withReturns_ne (by decide) (by decide) fun tail => hcomment tail hopen⟩
  · rename_i hrest
    simp [separator?, hrest]

/-- A separator is read as one or, if it is a line feed, as two. -/
theorem separator?_returned_of_some (h : cur.MovedBy move)
    (hnext : cur.separator? = .ok (some next)) :
    (cur.returned move).separator? = .ok (some (next.returned move)) ∨
      ∃ between : Cursor, (cur.returned move).separator? = .ok (some between) ∧
        between.separator? = .ok (some (next.returned move)) := by
  by_cases hbreak : cur.rest.head? = some '\n'
  · obtain ⟨rest, hrest⟩ := List.head?_eq_some_iff.mp hbreak
    obtain ⟨between, hfirst, hsecond⟩ := separator?_of_break h hrest
    have hahead : cur.rest = ['\n'] ++ rest := hrest
    have hread := separator?_of_reads (.blank (by decide)) (reads_pass hahead)
    rw [hnext] at hread
    cases hread
    exact .inr ⟨between, hfirst, hsecond⟩
  · exact .inl (by rw [separator?_returned h hbreak, hnext]; rfl)

/-- Where no separator is read, or a comment is not closed, no line feed stands. -/
theorem separator?_ne_break {outcome : Except Fault (Option Cursor)}
    (h : cur.separator? = outcome) (houtcome : ∀ next, outcome ≠ .ok (some next)) :
    cur.rest.head? ≠ some '\n' := by
  intro hbreak
  obtain ⟨rest, hrest⟩ := List.head?_eq_some_iff.mp hbreak
  have hahead : cur.rest = ['\n'] ++ rest := hrest
  have hread := separator?_of_reads (.blank (by decide)) (reads_pass hahead)
  exact houtcome _ (h.symm.trans hread)

theorem skipTrivia_returned (h : cur.MovedBy move) :
    (cur.returned move).skipTrivia = relocated move (returned move) cur.skipTrivia := by
  fun_induction skipTrivia cur with
  | case1 cur fault hfault =>
    have hbreak := separator?_ne_break hfault fun _ h => by cases h
    exact skipTrivia_of_error (by rw [separator?_returned h hbreak, hfault]; rfl)
  | case2 cur hnone =>
    have hbreak := separator?_ne_break hnone fun _ h => by cases h
    exact skipTrivia_of_atToken
      (separator?_eq_ok_none_iff.mp (by rw [separator?_returned h hbreak, hnone]; rfl))
  | case3 cur next hnext ih =>
    obtain ⟨separator, hreads, -⟩ := reads_separator? hnext
    rw [← ih (h.of_reads hreads)]
    rcases separator?_returned_of_some h hnext with hread | ⟨between, hfirst, hsecond⟩
    · exact skipTrivia_of_separator? hread
    · rw [skipTrivia_of_separator? hfirst, skipTrivia_of_separator? hsecond]

theorem atToken_returned (h : cur.MovedBy move) (htoken : AtToken cur.rest) :
    AtToken (cur.returned move).rest := by
  have hskip := skipTrivia_returned h
  rw [skipTrivia_of_atToken htoken] at hskip
  exact atToken_of_skipTrivia hskip

end Cursor

/-! ### Names and numbers -/

/-- A piece ends in front of a line break as it does in front of a carriage return. -/
theorem alike_withReturns {text : List Char} (h : PlainBreaks text) :
    Alike text (withReturns text) := by
  by_cases hmem : '\n' ∈ text
  · obtain ⟨begun, rest, rfl, hbegun⟩ := List.eq_append_cons_of_mem hmem
    have hparted : Parted ('\r' :: '\n' :: withReturns rest) := .cons _ rfl
    rw [Text.withReturns_append, Text.withReturns_eq_self hbegun, Text.withReturns_break]
    by_cases hnil : begun = []
    · subst hnil
      exact .parted _ hparted
    · refine .inside ('\n' :: rest) hparted hnil ?_ ?_
      · rintro rfl
        exact h.ne_break rfl
      · rintro rfl
        exact h.tail.ne_break rfl
  · rw [Text.withReturns_eq_self hmem]
    exact .same text

theorem notMem_of_spanName {text : List Char} (h : PlainBreaks text) :
    '\n' ∉ (spanName text).1 := by
  fun_induction spanName text with
  | case1 c rest name after hspan ih =>
    have hname := ih h.tail.tail
    rw [hspan] at hname
    simp [h.ne_break.symm, hname]
  | case2 c rest hescape hname name after hspan ih =>
    have htail := ih h.tail
    rw [hspan] at htail
    have hc : c ≠ '\n' := by rintro rfl; cases hname
    simp [hc.symm, htail]
  | case3 c rest hescape hname => simp
  | case4 => simp

namespace Numeral

theorem notMem_of_spanDigits (text : List Char) : '\n' ∉ (spanDigits text).1 := fun hmem =>
  absurd (isDigit_of_spanDigits rfl hmem) (by decide)

theorem notMem_of_spanSign (text : List Char) : '\n' ∉ (spanSign text).1 := by
  fun_cases spanSign text <;> simp

theorem notMem_of_spanFraction (text : List Char) : '\n' ∉ (spanFraction text).1 := by
  unfold spanFraction
  split
  · rename_i rest
    have hdigits := notMem_of_spanDigits rest
    split
    · simp
    · rename_i hspan
      rw [hspan] at hdigits
      simpa using hdigits
  · simp

theorem notMem_of_spanExponent (text : List Char) : '\n' ∉ (spanExponent text).1 := by
  unfold spanExponent
  split
  · rename_i c rest
    split
    · rename_i hmark
      have hc : c ≠ '\n' := by rintro rfl; cases hmark
      have hsign := notMem_of_spanSign rest
      have hdigits := notMem_of_spanDigits (spanSign rest).2
      dsimp only
      split
      · simp
      · rename_i hspan
        rw [hspan] at hdigits
        simp [hc.symm, hsign, hdigits]
    · simp
  · simp

end Numeral

namespace Cursor

variable {cur next : Cursor}

open Numeral in
theorem notMem_of_numeral? {number : List Char} (h : cur.numeral? = some (number, next)) :
    '\n' ∉ number := by
  unfold numeral? at h
  dsimp only at h
  split at h <;> cases h
  simp only [List.mem_append, not_or]
  exact ⟨⟨⟨notMem_of_spanSign _, notMem_of_spanDigits _⟩, notMem_of_spanFraction _⟩,
    notMem_of_spanExponent _⟩

theorem notMem_of_identifier? {name : List Char} (h : cur.MovedBy move)
    (hname : cur.identifier? = some (name, next)) : '\n' ∉ name := by
  unfold identifier? at hname
  split at hname <;> cases hname
  exact notMem_of_spanName h.plain

theorem notMem_of_numeric? {token : Token} {taken : List Char} (h : cur.MovedBy move)
    (hnumeric : cur.numeric? = some (token, next)) (hreads : Reads cur taken next) :
    '\n' ∉ taken := by
  simp only [numeric?, bind, Option.bind_eq_some_iff, Prod.exists] at hnumeric
  obtain ⟨digits, after, hnumeral, hnumeric⟩ := hnumeric
  have hdigits := (reads_numeral? hnumeral).1
  have hnone := notMem_of_numeral? hnumeral
  split at hnumeric
  · rename_i hpercent
    cases hnumeric
    obtain rfl := hreads.unique (hdigits.trans (reads_char? hpercent))
    simp [hnone]
  · split at hnumeric
    · rename_i hunit
      cases hnumeric
      obtain rfl := hreads.unique (hdigits.trans (reads_identifier? hunit).1)
      simp [hnone, notMem_of_identifier? (h.of_reads hdigits) hunit]
    · cases hnumeric
      obtain rfl := hreads.unique hdigits
      exact hnone

/-- A part without line feeds is followed by the text with its carriage returns. -/
theorem MovedBy.returned_eq (h : cur.MovedBy move) {taken : List Char}
    (hreads : Reads cur taken next) (htaken : '\n' ∉ taken) :
    cur.returned move = ⟨move cur.offset, taken ++ withReturns next.rest⟩ ∧
      next.returned move = ⟨move cur.offset + size taken, withReturns next.rest⟩ := by
  have hmove := h.move_eq taken (hreads.rest_eq ▸ List.prefix_append taken next.rest)
  rw [Text.withReturns_eq_self htaken] at hmove
  constructor
  · rw [returned, hreads.rest_eq, Text.withReturns_append, Text.withReturns_eq_self htaken]
  · rw [returned, hreads.offset_eq, hmove]

theorem identifier?_returned (h : cur.MovedBy move) :
    (cur.returned move).identifier? = cur.identifier?.map (Prod.map id (returned move)) := by
  have hlike := alike_withReturns h.plain
  cases hname : cur.identifier? with
  | none =>
    rw [identifier?_eq_none_iff] at hname
    exact identifier?_eq_none_iff.mpr (hlike.beginsIdentifier hname)
  | some found =>
    obtain ⟨name, next⟩ := found
    have hreads := (reads_identifier? hname).1
    obtain ⟨hcur, hnext⟩ := h.returned_eq hreads (notMem_of_identifier? h hname)
    have hafter := (alike_withReturns (h.of_reads hreads).plain).spanName
      (spanName_after_identifier? hname)
    rw [hcur, identifier?_recut hname hafter, ← hnext]
    rfl

theorem char?_returned (h : cur.MovedBy move) {c : Char} (hbreak : c ≠ '\n') (hreturn : c ≠ '\r') :
    (cur.returned move).char? c = (cur.char? c).map (returned move) := by
  cases hchar : cur.char? c with
  | none =>
    rw [char?_eq_none_iff] at hchar
    rw [Option.map_none, char?_eq_none_iff, returned_rest, ne_eq,
      Text.head?_withReturns_eq_some_iff hbreak hreturn]
    exact hchar
  | some next =>
    obtain ⟨hcur, hnext⟩ := h.returned_eq (reads_char? hchar) (by simp [hbreak.symm])
    rw [hcur, Option.map_some, hnext]
    exact char?_of_cons rfl

/-! ### Addresses -/

theorem url_word?_returned (h : cur.MovedBy move) :
    (cur.returned move).word? ['u', 'r', 'l', '('] =
      (cur.word? ['u', 'r', 'l', '(']).map (returned move) := by
  cases hword : cur.word? ['u', 'r', 'l', '('] with
  | none =>
    have hletters : ∀ c ∈ ['u', 'r', 'l', '('], isParting c = false := by simp [isParting]
    exact word?_none_alike hletters hword (alike_withReturns h.plain) (move cur.offset)
  | some next =>
    obtain ⟨taken, hreads, -, hlower⟩ := reads_word? hword
    have htaken : '\n' ∉ taken := fun hmem =>
      absurd (hlower ▸ List.mem_map_of_mem hmem : Char.toLower '\n' ∈ ['u', 'r', 'l', '('])
        (by decide)
    obtain ⟨hcur, hnext⟩ := h.returned_eq hreads htaken
    rw [hcur, Option.map_some, hnext]
    exact word?_recut hword hreads (withReturns next.rest) (move cur.offset)

/-- No line feed stands in a string. -/
theorem notMem_of_quoted {text : List Char} (h : cur.MovedBy move)
    (hlexeme : cur.lexeme? = .ok (some (.quoted text, next))) : '\n' ∉ text := by
  obtain ⟨hbefore, hreads⟩ := lexeme?_eq_ok_some_iff.mp hlexeme
  have hplain := h.plain
  rw [hreads.rest_eq] at hplain
  generalize next.rest = rest at hplain hbefore
  cases hbefore with
  | @quoted quote inside rest hquote hclose =>
    have hinside : PlainBreaks inside := hplain.of_part
      ((List.infix_append' [quote] inside rest).trans (by simp [Lexeme.text]))
    simpa [(ne_return_of_isQuote hquote).1.symm] using notMem_of_closeQuote? hinside hclose

theorem quoted?_returned (h : cur.MovedBy move) :
    (cur.returned move).quoted? = cur.quoted?.map (Prod.map id (returned move)) := by
  by_cases hbreak : cur.rest.head? = some '\n'
  · obtain ⟨rest, hrest⟩ := List.head?_eq_some_iff.mp hbreak
    obtain ⟨between, hfirst, -⟩ := lexeme?_of_break h hrest
    rw [quoted?, hfirst, quoted?, lexeme?_of_cons hrest (by decide) (absurd · (by decide))]
    rfl
  · rw [quoted?, lexeme?_returned h hbreak, quoted?]
    cases hlexeme : cur.lexeme? with
    | error fault => rfl
    | ok found =>
      rcases found with _ | ⟨lexeme, next⟩
      · rfl
      · cases lexeme with
        | quoted text =>
          have htext := Text.withReturns_eq_self (notMem_of_quoted h hlexeme)
          simp [Lexeme.returned, htext]
        | _ => rfl

theorem bareAddress_returned (h : cur.MovedBy move) :
    (cur.returned move).bareAddress.2 = cur.bareAddress.2.returned move := by
  have hpass := h.returned_pass _ _ (List.takeWhile_append_dropWhile (p := (· != ')'))).symm
  simp only [bareAddress, returned_rest]
  rw [Text.takeWhile_withReturns rfl, Text.dropWhile_withReturns rfl, hpass]

/-- An address ends at the same place. -/
theorem address?_returned (h : cur.MovedBy move) :
    (cur.returned move).address?.map Prod.snd = cur.address?.map (returned move ∘ Prod.snd) := by
  have hquote : (cur.returned move).rest.head?.any isQuote = cur.rest.head?.any isQuote := by
    by_cases hbreak : cur.rest.head? = some '\n'
    · obtain ⟨rest, hrest⟩ := List.head?_eq_some_iff.mp hbreak
      rw [returned_rest, hrest]
      rfl
    · rw [returned_rest, Text.head?_withReturns hbreak]
  rw [address?, address?, hquote]
  split
  · rw [quoted?_returned h, Option.map_map]
    rfl
  · exact congrArg some (bareAddress_returned h)

/-- Where a whole `url(…)` ends does not depend on its address but for the place where that ends. -/
theorem snd_url? (cur : Cursor) :
    cur.url?.map Prod.snd = (do
      let inside ← cur.word? ['u', 'r', 'l', '(']
      let begun ← inside.skipTrivia.toOption
      let ended ← begun.address?.map Prod.snd
      let close ← ended.skipTrivia.toOption
      close.char? ')') := by
  unfold url?
  cases cur.word? ['u', 'r', 'l', '('] with
  | none => rfl
  | some inside =>
    simp only [bind, Option.bind_some]
    cases inside.skipTrivia.toOption with
    | none => rfl
    | some begun =>
      simp only [Option.bind_some]
      cases begun.address? with
      | none => rfl
      | some found =>
        simp only [Option.bind_some, Option.map_some]
        cases found.2.skipTrivia.toOption with
        | none => rfl
        | some close =>
          simp only [Option.bind_some]
          cases close.char? ')' <;> rfl

/-- A whole `url(…)` ends at the same place. -/
theorem url?_returned (h : cur.MovedBy move) :
    (cur.returned move).url?.map Prod.snd = (cur.url?.map Prod.snd).map (returned move) := by
  rw [snd_url?, snd_url?, url_word?_returned h]
  refine option_bind_map fun inside hinside => ?_
  obtain ⟨word, hword, -⟩ := reads_word? hinside
  have h := h.of_reads hword
  rw [skipTrivia_returned h, toOption_relocated]
  refine option_bind_map fun begun hbegun => ?_
  obtain ⟨gap, hgap⟩ := reads_skipTrivia? hbegun
  have h := h.of_reads hgap
  rw [address?_returned h, ← Option.map_map]
  refine option_bind_map fun ended hended => ?_
  obtain ⟨⟨address, ended'⟩, haddress, rfl⟩ := Option.map_eq_some_iff.mp hended
  obtain ⟨inner, hinner⟩ := reads_address? haddress
  have h := h.of_reads hinner
  rw [skipTrivia_returned h, toOption_relocated]
  refine option_bind_map fun close hclose => ?_
  obtain ⟨blanks, hblanks⟩ := reads_skipTrivia? hclose
  exact char?_returned (h.of_reads hblanks) (by decide) (by decide)

/-! ### Pieces -/

/-- No line feed stands in a piece, but in a whole address. -/
theorem notMem_of_piece? {piece : Piece} {taken : List Char} (h : cur.MovedBy move)
    (htoken : AtToken cur.rest) (hpiece : cur.piece? = .ok (some (piece, next)))
    (hreads : Reads cur taken next) (hurl : cur.url? = none) : '\n' ∉ taken := by
  cases pieceAt_of_piece? hpiece with
  | string hquoted =>
    obtain ⟨quoted, -, hlexeme⟩ := quoted?_eq_some_iff.mp hquoted
    obtain rfl := hreads.unique (reads_lexeme? hlexeme)
    exact notMem_of_quoted h hlexeme
  | comma hone | closing hone | slash hone =>
    obtain rfl := hreads.unique hone
    decide
  | hash hone =>
    obtain rfl := hreads.unique (hone.trans (reads_name _))
    have hname := notMem_of_spanName (h.of_reads hone).plain
    simpa [name] using hname
  | url hsome => cases hurl.symm.trans hsome
  | percentage hnumeric | dimension hnumeric | number hnumeric =>
    exact notMem_of_numeric? h hnumeric hreads
  | opening hname hopening =>
    obtain rfl := hreads.unique ((reads_identifier? hname).1.trans hopening)
    simp [notMem_of_identifier? h hname]
  | ident hname =>
    obtain rfl := hreads.unique (reads_identifier? hname).1
    exact notMem_of_identifier? h hname
  | delim hone hname hquote hslash =>
    obtain rfl := hreads.unique hone
    rw [hone.rest_eq] at htoken
    simp only [List.mem_singleton]
    rintro rfl
    cases htoken.1

end Cursor

/-- The same piece, or an address as well. -/
inductive Piece.Like : Piece → Piece → Prop
  | same (piece : Piece) : Like piece piece
  | address (address address' : String) : Like (.token (.url address)) (.token (.url address'))

namespace Cursor

variable {cur next : Cursor}

/-- A piece is read as it was, but for what stands in an address. -/
theorem piece?_returned {piece : Piece} (h : cur.MovedBy move) (htoken : AtToken cur.rest)
    (hpiece : cur.piece? = .ok (some (piece, next))) :
    ∃ piece', (cur.returned move).piece? = .ok (some (piece', next.returned move)) ∧
      piece.Like piece' := by
  have hends := url?_returned h
  cases hurl : cur.url? with
  | some found =>
    obtain ⟨token, last⟩ := found
    rw [hurl] at hends
    obtain ⟨⟨token', last'⟩, hurl', rfl⟩ := Option.map_eq_some_iff.mp hends
    obtain ⟨⟨address, rfl⟩, -⟩ := eq_url_of_url? hurl
    obtain ⟨⟨address', rfl⟩, -⟩ := eq_url_of_url? hurl'
    rw [piece?_of_url? hurl] at hpiece
    cases hpiece
    exact ⟨_, piece?_of_url? hurl', .address address address'⟩
  | none =>
    rw [hurl] at hends
    obtain ⟨taken, hreads, -⟩ := reads_piece? hpiece
    have htaken := notMem_of_piece? h htoken hpiece hreads hurl
    obtain ⟨hcur, hnext⟩ := h.returned_eq hreads htaken
    have hrest : withReturns cur.rest = taken ++ withReturns next.rest := congrArg Cursor.rest hcur
    have hurl' : (cur.returned move).url? = none := Option.map_eq_none_iff.mp hends
    rw [hcur] at hurl' ⊢
    refine ⟨piece, ?_, .same piece⟩
    rw [hnext]
    exact piece?_recut hpiece hreads (alike_withReturns (h.of_reads hreads).plain) _
      (hrest ▸ alike_withReturns h.plain) hurl hurl'

end Cursor

end Css

end WebFonts
