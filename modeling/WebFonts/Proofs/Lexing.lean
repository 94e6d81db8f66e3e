import Mathlib.Data.List.Basic
import Mathlib.Data.List.Induction
import WebFonts.Css.Lexeme

/-!
# Dividing a text into lexemes

Which lexeme stands at a place depends on little of the text behind it: a slash must not be followed
by a star, and a lone backslash only ends a text. `Lexeme.Before` says this for one lexeme and
`Lexes` for a sequence of them, so that a sequence that was read in one text can be found again in
another.

* `Cursor.lexeme?_eq_ok_some_iff`: what `Cursor.lexeme?` reads, without its search.
* `Lexes.congr`: a division survives a change of the text behind it that keeps its first character.
* `Lexes.split`: a text has one division only, so the division of a text begins with that of any
  part in front of it.
-/

namespace WebFonts.Css

open Text (size isBlank)

/-! ### Closing a string or a comment -/

/-- A character of a string that is neither a backslash nor a line feed closes it or stands in
it. -/
theorem closeQuote?_cons {quote c : Char} {rest : List Char} (hescape : c ≠ '\\')
    (hbreak : c ≠ '\n') :
    closeQuote? quote (c :: rest) =
      if c == quote then some ([c], rest)
      else (closeQuote? quote rest).map fun (inside, after) => (c :: inside, after) := by
  rw [closeQuote?.eq_def]
  split <;> simp_all

/-- Where a string ends does not depend on the text behind it. -/
theorem closeQuote?_append {quote : Char} {text inside after : List Char}
    (h : closeQuote? quote text = some (inside, after)) (after' : List Char) :
    closeQuote? quote (inside ++ after') = some (inside, after') := by
  fun_induction closeQuote? quote text generalizing inside after with
  | case1 => cases h
  | case2 => cases h
  | case3 c rest ih =>
    obtain ⟨⟨tail, last⟩, htail, heq⟩ := Option.map_eq_some_iff.mp h
    cases heq
    simp [closeQuote?, ih htail]
  | case4 => cases h
  | case5 c rest hlone hescape hbreak hquote =>
    cases h
    have hc : c ≠ '\\' := by rintro rfl; cases rest <;> simp_all
    have hn : c ≠ '\n' := fun heq => hbreak heq
    rw [List.cons_append, closeQuote?_cons hc hn, if_pos hquote, List.nil_append]
  | case6 c rest hlone hescape hbreak hquote ih =>
    obtain ⟨⟨tail, last⟩, htail, heq⟩ := Option.map_eq_some_iff.mp h
    cases heq
    have hc : c ≠ '\\' := by rintro rfl; cases rest <;> simp_all
    have hn : c ≠ '\n' := fun heq => hbreak heq
    rw [List.cons_append, closeQuote?_cons hc hn, if_neg hquote, ih htail]
    rfl

theorem closeComment?_cons {c : Char} {rest : List Char}
    (h : c = '*' → rest.head? ≠ some '/') :
    closeComment? (c :: rest) =
      (closeComment? rest).map fun (inside, after) => (c :: inside, after) := by
  rw [closeComment?.eq_def]
  split <;> simp_all

theorem inside_ne_nil_of_closeComment? {text inside after : List Char}
    (h : closeComment? text = some (inside, after)) : inside ≠ [] := by
  fun_induction closeComment? text with
  | case1 => cases h
  | case2 rest => cases h; simp
  | case3 c rest hend =>
    obtain ⟨found, -, heq⟩ := Option.map_eq_some_iff.mp h
    cases heq
    simp

/-- Where a comment ends does not depend on the text behind it. -/
theorem closeComment?_append {text inside after : List Char}
    (h : closeComment? text = some (inside, after)) (after' : List Char) :
    closeComment? (inside ++ after') = some (inside, after') := by
  fun_induction closeComment? text generalizing inside after with
  | case1 => cases h
  | case2 rest => cases h; rfl
  | case3 c rest hend ih =>
    obtain ⟨⟨tail, last⟩, htail, heq⟩ := Option.map_eq_some_iff.mp h
    cases heq
    have hhead : c = '*' → (tail ++ after').head? ≠ some '/' := by
      rintro rfl hslash
      have hrest := append_of_closeComment? htail
      obtain ⟨d, tail, rfl⟩ := List.exists_cons_of_ne_nil (inside_ne_nil_of_closeComment? htail)
      rw [List.cons_append, List.head?_cons, Option.some.injEq] at hslash
      exact hend _ rfl (hslash ▸ hrest)
    rw [List.cons_append, closeComment?_cons hhead, ih htail]
    rfl

/-- A string ends with its closing quote. -/
theorem getLast?_of_closeQuote? {quote : Char} {text inside after : List Char}
    (h : closeQuote? quote text = some (inside, after)) : inside.getLast? = some quote := by
  fun_induction closeQuote? quote text generalizing inside after with
  | case1 => cases h
  | case2 => cases h
  | case3 c rest ih =>
    obtain ⟨⟨tail, last⟩, htail, heq⟩ := Option.map_eq_some_iff.mp h
    cases heq
    rw [List.getLast?_cons, List.getLast?_cons, ih htail]
    rfl
  | case4 => cases h
  | case5 c rest hlone hescape hbreak hquote =>
    cases h
    rw [beq_iff_eq] at hquote
    rw [hquote]
    rfl
  | case6 c rest hlone hescape hbreak hquote ih =>
    obtain ⟨⟨tail, last⟩, htail, heq⟩ := Option.map_eq_some_iff.mp h
    cases heq
    rw [List.getLast?_cons, ih htail]
    rfl

/-- A comment ends with a slash. -/
theorem getLast?_of_closeComment? {text inside after : List Char}
    (h : closeComment? text = some (inside, after)) : inside.getLast? = some '/' := by
  fun_induction closeComment? text generalizing inside after with
  | case1 => cases h
  | case2 => cases h; rfl
  | case3 c rest hstar ih =>
    obtain ⟨⟨tail, last⟩, htail, heq⟩ := Option.map_eq_some_iff.mp h
    cases heq
    rw [List.getLast?_cons, ih htail]
    rfl

/-! ### Where a lexeme can stand -/

/-- A lexeme can be read in front of a text. -/
inductive Lexeme.Before : Lexeme → List Char → Prop
  | quoted {quote : Char} {inside rest : List Char} (hquote : isQuote quote = true)
      (hclose : closeQuote? quote inside = some (inside, [])) :
      Before (.quoted (quote :: inside)) rest
  | comment {inside rest : List Char} (hclose : closeComment? inside = some (inside, [])) :
      Before (.comment ('/' :: '*' :: inside)) rest
  | escape (c : Char) (rest : List Char) : Before (.escape ['\\', c]) rest
  | backslash : Before (.escape ['\\']) []
  | plain {c : Char} {rest : List Char} (hescape : c ≠ '\\') (hquote : isQuote c = false)
      (hcomment : c = '/' → rest.head? ≠ some '*') : Before (.plain c) rest

namespace Cursor

variable {cur next : Cursor} {lexeme : Lexeme}

/-- Reading at a character that begins neither an escape nor a comment. -/
theorem lexeme?_of_cons {c : Char} {rest : List Char} (hrest : cur.rest = c :: rest)
    (hescape : c ≠ '\\') (hcomment : c = '/' → rest.head? ≠ some '*') :
    cur.lexeme? =
      if isQuote c then
        match closeQuote? c rest with
        | some (inside, after) =>
          .ok (some (.quoted (c :: inside), cur.pass (c :: inside) after))
        | none => cur.fail .unterminatedString
      else .ok (some (.plain c, cur.pass [c] rest)) := by
  unfold lexeme?
  rw [hrest]
  split
  · simp_all
  · simp_all
  · simp_all
  · simp_all
  · rename_i heq
    cases heq
    rfl

theorem lexeme?_of_before (h : lexeme.Before next.rest) (hreads : Reads cur lexeme.text next) :
    cur.lexeme? = .ok (some (lexeme, next)) := by
  obtain ⟨offset, rest⟩ := next
  obtain ⟨hrest, hoffset⟩ := hreads
  dsimp only at hrest hoffset h
  subst hoffset
  cases h with
  | quoted hquote hclose =>
    rename_i quote inside
    rw [Lexeme.text, List.cons_append] at hrest
    rw [lexeme?_of_cons hrest (by rintro rfl; cases hquote) (by rintro rfl; cases hquote),
      if_pos hquote, closeQuote?_append hclose]
    rfl
  | comment hclose => simp [lexeme?, hrest, Lexeme.text, closeComment?_append hclose, pass]
  | escape c => simp [lexeme?, hrest, Lexeme.text, pass]
  | backslash => simp [lexeme?, hrest, Lexeme.text, pass]
  | plain hescape hquote hcomment =>
    rw [lexeme?_of_cons hrest hescape hcomment, if_neg (by simpa using hquote)]
    rfl

theorem before_of_lexeme? (h : cur.lexeme? = .ok (some (lexeme, next))) :
    lexeme.Before next.rest := by
  unfold lexeme? fail at h
  split at h
  · cases h
  · split at h <;> cases h
    rename_i hclose
    have hinside := closeComment?_append hclose []
    rw [List.append_nil] at hinside
    exact .comment hinside
  · cases h; exact .escape _ _
  · cases h; exact .backslash
  · rename_i c rest hcomment hescape hlone hrest
    split at h
    · rename_i hquote
      split at h <;> cases h
      rename_i hclose
      have hinside := closeQuote?_append hclose []
      rw [List.append_nil] at hinside
      exact .quoted hquote hinside
    · rename_i hquote
      cases h
      refine .plain ?_ (by simpa using hquote) ?_
      · rintro rfl
        cases rest <;> simp_all
      · rintro rfl hstar
        cases rest <;> simp_all [pass]

/-- A lexeme is read exactly where it stands and can be read in front of what follows. -/
theorem lexeme?_eq_ok_some_iff :
    cur.lexeme? = .ok (some (lexeme, next)) ↔
      lexeme.Before next.rest ∧ Reads cur lexeme.text next :=
  ⟨fun h => ⟨before_of_lexeme? h, reads_lexeme? h⟩, fun h => lexeme?_of_before h.1 h.2⟩

/-- Nothing is read exactly at the end of a text. -/
theorem lexeme?_eq_ok_none_iff : cur.lexeme? = .ok none ↔ cur.rest = [] := by
  constructor
  · intro h
    unfold lexeme? fail at h
    split at h
    · assumption
    · split at h <;> cases h
    · cases h
    · cases h
    · split at h
      · split at h <;> cases h
      · cases h
  · intro h
    simp [lexeme?, h]

end Cursor

namespace Lexeme.Before

variable {lexeme lexeme' : Lexeme} {rest rest' : List Char}

theorem text_ne_nil (h : lexeme.Before rest) : lexeme.text ≠ [] := by
  cases h <;> simp [Lexeme.text]

/-- Only the first character behind a lexeme matters to it. -/
theorem congr (h : lexeme.Before rest) (hhead : rest.head? = rest'.head?) :
    lexeme.Before rest' := by
  cases h with
  | quoted hquote hclose => exact .quoted hquote hclose
  | comment hclose => exact .comment hclose
  | escape c => exact .escape c rest'
  | backslash =>
    rw [List.head?_nil, eq_comm, List.head?_eq_none_iff] at hhead
    subst hhead
    exact .backslash
  | plain hescape hquote hcomment => exact .plain hescape hquote (hhead ▸ hcomment)

/-- Any lexeme but a lone backslash can stand in front of any text that begins with no star. -/
theorem recut (h : lexeme.Before rest) (hlone : lexeme ≠ .escape ['\\'])
    (hstar : rest'.head? ≠ some '*') : lexeme.Before rest' := by
  cases h with
  | quoted hquote hclose => exact .quoted hquote hclose
  | comment hclose => exact .comment hclose
  | escape c => exact .escape c rest'
  | backslash => exact absurd rfl hlone
  | plain hescape hquote _ => exact .plain hescape hquote fun _ => hstar

/-- Any lexeme can end a text. -/
theorem atEnd (h : lexeme.Before rest) : lexeme.Before [] := by
  cases h with
  | quoted hquote hclose => exact .quoted hquote hclose
  | comment hclose => exact .comment hclose
  | escape c => exact .escape c []
  | backslash => exact .backslash
  | plain hescape hquote _ => exact .plain hescape hquote fun _ => nofun

/-- Only one lexeme stands at the beginning of a text. -/
theorem unique (h : lexeme.Before rest) (h' : lexeme'.Before rest')
    (heq : lexeme.text ++ rest = lexeme'.text ++ rest') : lexeme = lexeme' ∧ rest = rest' := by
  have hreads : Cursor.Reads ⟨0, lexeme.text ++ rest⟩ lexeme.text ⟨0 + size lexeme.text, rest⟩ :=
    ⟨rfl, rfl⟩
  have hreads' : Cursor.Reads ⟨0, lexeme.text ++ rest⟩ lexeme'.text
      ⟨0 + size lexeme'.text, rest'⟩ :=
    ⟨heq, rfl⟩
  have hread := Cursor.lexeme?_of_before h hreads
  have hread' := Cursor.lexeme?_of_before h' hreads'
  rw [hread] at hread'
  simp only [Except.ok.injEq, Option.some.injEq, Prod.mk.injEq, Cursor.mk.injEq] at hread'
  exact ⟨hread'.1, hread'.2.2⟩

end Lexeme.Before

/-! ### Sequences of lexemes -/

/-- The characters of a sequence of lexemes. -/
def spell (lexemes : List Lexeme) : List Char :=
  lexemes.flatMap Lexeme.text

@[simp] theorem spell_nil : spell [] = [] := rfl

@[simp] theorem spell_cons (lexeme : Lexeme) (lexemes : List Lexeme) :
    spell (lexeme :: lexemes) = lexeme.text ++ spell lexemes := rfl

@[simp] theorem spell_append (front back : List Lexeme) :
    spell (front ++ back) = spell front ++ spell back :=
  List.flatMap_append

/-- The lexemes of a sequence can be read one after another in front of a text. -/
def Lexes : List Lexeme → List Char → Prop
  | [], _ => True
  | lexeme :: lexemes, rest => lexeme.Before (spell lexemes ++ rest) ∧ Lexes lexemes rest

@[simp] theorem lexes_nil (rest : List Char) : Lexes [] rest := trivial

@[simp] theorem lexes_cons {lexeme : Lexeme} {lexemes : List Lexeme} {rest : List Char} :
    Lexes (lexeme :: lexemes) rest ↔
      lexeme.Before (spell lexemes ++ rest) ∧ Lexes lexemes rest := Iff.rfl

theorem lexes_append {front back : List Lexeme} {rest : List Char} :
    Lexes (front ++ back) rest ↔ Lexes front (spell back ++ rest) ∧ Lexes back rest := by
  induction front with
  | nil => simp
  | cons lexeme front ih => simp [ih, and_assoc]

namespace Lexes

variable {lexemes : List Lexeme} {rest rest' : List Char}

/-- Only the first character behind a sequence matters to it. -/
theorem congr (h : Lexes lexemes rest) (hhead : rest.head? = rest'.head?) :
    Lexes lexemes rest' := by
  induction lexemes with
  | nil => trivial
  | cons lexeme lexemes ih =>
    obtain ⟨hbefore, htail⟩ := h
    refine ⟨hbefore.congr ?_, ih htail⟩
    rw [List.head?_append, List.head?_append, hhead]

/-- A lone backslash stands at the end of a text only. -/
theorem getLast?_ne (h : Lexes lexemes rest) (hrest : rest ≠ []) :
    lexemes.getLast? ≠ some (.escape ['\\']) := by
  intro hlast
  obtain ⟨front, rfl⟩ := List.getLast?_eq_some_iff.mp hlast
  obtain ⟨-, hbefore, -⟩ := lexes_append.mp h
  rw [spell_nil, List.nil_append] at hbefore
  cases hbefore
  exact hrest rfl

/-- Any sequence can end a text. -/
theorem atEnd (h : Lexes lexemes rest) : Lexes lexemes [] := by
  cases lexemes using List.reverseRecOn with
  | nil => trivial
  | append_singleton front last =>
    obtain ⟨hfront, hlast, -⟩ := lexes_append.mp h
    refine lexes_append.mpr ⟨hfront.congr ?_, ?_⟩
    · have hne : spell [last] ≠ [] := by simpa using hlast.text_ne_nil
      rw [List.head?_append_of_ne_nil _ hne, List.head?_append_of_ne_nil _ hne]
    · exact ⟨hlast.atEnd, trivial⟩

/-- A text that is divided into lexemes is divided like any part in front of it. -/
theorem split {front : List Lexeme} {back : List Char} (h : Lexes lexemes rest)
    (hfront : Lexes front (back ++ rest)) (heq : spell lexemes = spell front ++ back) :
    ∃ tail, lexemes = front ++ tail ∧ spell tail = back := by
  induction front generalizing lexemes with
  | nil => exact ⟨lexemes, rfl, heq⟩
  | cons lexeme front ih =>
    obtain ⟨hbefore, hothers⟩ := hfront
    cases lexemes with
    | nil =>
      have hne := hbefore.text_ne_nil
      simp_all
    | cons first others =>
      obtain ⟨hfirst, hrest⟩ := h
      have htext : first.text ++ (spell others ++ rest) =
          lexeme.text ++ (spell front ++ (back ++ rest)) := by
        simpa using congrArg (· ++ rest) heq
      obtain ⟨rfl, hsame⟩ := hfirst.unique hbefore htext
      obtain ⟨tail, rfl, hspell⟩ := ih hrest hothers (by simpa using heq)
      exact ⟨tail, rfl, hspell⟩

end Lexes

/-! ### Texts that are lexemes in front of any text -/

/-- A text is a sequence of lexemes, whatever follows it. -/
def Whole (text : List Char) : Prop :=
  ∃ lexemes, spell lexemes = text ∧ ∀ rest, Lexes lexemes rest

namespace Whole

theorem nil : Whole [] :=
  ⟨[], rfl, fun _ => trivial⟩

theorem append {front back : List Char} (hfront : Whole front) (hback : Whole back) :
    Whole (front ++ back) := by
  obtain ⟨lexemes, rfl, hlexes⟩ := hfront
  obtain ⟨others, rfl, hothers⟩ := hback
  exact ⟨lexemes ++ others, spell_append .., fun rest => lexes_append.mpr ⟨hlexes _, hothers rest⟩⟩

theorem of_lexeme {lexeme : Lexeme} (h : ∀ rest, lexeme.Before rest) : Whole lexeme.text :=
  ⟨[lexeme], List.append_nil _, fun rest => ⟨h rest, trivial⟩⟩

theorem of_escape (c : Char) : Whole ['\\', c] :=
  of_lexeme (.escape c)

theorem of_plain {c : Char} (hescape : c ≠ '\\') (hslash : c ≠ '/') (hquote : isQuote c = false) :
    Whole [c] :=
  of_lexeme fun _ => .plain hescape hquote (absurd · hslash)

theorem cons {c : Char} {text : List Char} (hescape : c ≠ '\\') (hslash : c ≠ '/')
    (hquote : isQuote c = false) (htext : Whole text) : Whole (c :: text) :=
  (of_plain hescape hslash hquote).append htext

theorem of_forall {text : List Char}
    (h : ∀ c ∈ text, c ≠ '\\' ∧ c ≠ '/' ∧ isQuote c = false) : Whole text := by
  induction text with
  | nil => exact nil
  | cons c text ih =>
    obtain ⟨hescape, hslash, hquote⟩ := h c (List.mem_cons_self ..)
    exact cons hescape hslash hquote (ih fun d hd => h d (List.mem_cons_of_mem c hd))

/-- That every character of a text stands for itself can be checked. -/
theorem of_all {text : List Char}
    (h : text.all (fun c => c != '\\' && c != '/' && !isQuote c) = true) : Whole text := by
  refine of_forall fun c hc => ?_
  have hc := List.all_eq_true.mp h c hc
  simpa [and_assoc] using hc

theorem of_quoted {text rest : List Char} (h : (Lexeme.quoted text).Before rest) : Whole text := by
  have hany (rest' : List Char) : (Lexeme.quoted text).Before rest' := by
    cases h with
    | quoted hquote hclose => exact .quoted hquote hclose
  exact of_lexeme hany

end Whole

/-! ### Cursors between which lexemes stand -/

/-- From one cursor to another, the text is a sequence of lexemes in front of what follows. -/
def Cursor.Scans (cur next : Cursor) : Prop :=
  ∃ lexemes, Reads cur (spell lexemes) next ∧ Lexes lexemes next.rest

namespace Cursor.Scans

theorem refl (cur : Cursor) : Scans cur cur :=
  ⟨[], .refl cur, trivial⟩

theorem trans {cur next last : Cursor} (h : Scans cur next) (h' : Scans next last) :
    Scans cur last := by
  obtain ⟨front, hreads, hfront⟩ := h
  obtain ⟨back, hreads', hback⟩ := h'
  refine ⟨front ++ back, by rw [spell_append]; exact hreads.trans hreads', ?_⟩
  exact lexes_append.mpr ⟨by rwa [← hreads'.rest_eq], hback⟩

theorem of_whole {cur next : Cursor} {text : List Char} (h : Whole text)
    (hreads : Reads cur text next) : Scans cur next := by
  obtain ⟨lexemes, rfl, hlexes⟩ := h
  exact ⟨lexemes, hreads, hlexes _⟩

/-- Behind a part that consists of lexemes, a text is divided on its own. -/
theorem behind {cur next last : Cursor} (h : Scans cur last) (hnext : Scans cur next)
    (hrest : last.rest = []) : Scans next last := by
  obtain ⟨lexemes, hlast, hlexes⟩ := h
  obtain ⟨front, hreads, hfront⟩ := hnext
  have heq : spell lexemes = spell front ++ next.rest := by
    rw [← hreads.rest_eq, hlast.rest_eq, hrest, List.append_nil]
  rw [hrest] at hlexes
  obtain ⟨tail, rfl, htail⟩ := hlexes.split (by rwa [List.append_nil]) heq
  refine ⟨tail, ⟨by rw [htail, hrest, List.append_nil], ?_⟩, ?_⟩
  · have hfirst := hreads.offset_eq
    have hall := hlast.offset_eq
    rw [spell_append, Text.size_append] at hall
    omega
  · rw [hrest]
    exact (lexes_append.mp hlexes).2

end Cursor.Scans

end WebFonts.Css
