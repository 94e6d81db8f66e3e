import Mathlib.Data.List.TakeWhile
import WebFonts.Css.Token
import WebFonts.Proofs.Trivia

/-!
# Pieces in a changed text

Whether a name, a number or another piece ends at a place depends on up to three characters behind
it. `Alike rest rest'` says that `rest'` is `rest`, or `rest` cut short at a place where this makes
no difference, by its end or by a character that no piece goes on with. Then every piece read in
front of `rest` is also read in front of `rest'` (`Cursor.piece?_recut`), except that an opening
`url(` has to be looked at with its arguments. A whole address depends on nothing behind it
(`Cursor.url?_recut`). A piece is made of whole lexemes (`Cursor.whole_of_piece?`).
-/

namespace WebFonts.Css

open Text (size)

/-! ### Texts that begin alike -/

/-- Whether a character ends every piece in front of it that does not protect it: a comma, an
exclamation mark, a slash or a separator. -/
def isParting (c : Char) : Bool :=
  c == ',' || c == '!' || c == '/' || c.isWhitespace

theorem eq_of_isParting {c : Char} (h : isParting c = true) :
    c = ',' ∨ c = '!' ∨ c = '/' ∨ c = ' ' ∨ c = '\t' ∨ c = '\r' ∨ c = '\n' := by
  simpa [isParting, Char.isWhitespace, or_assoc] using h

/-- No piece reaches into a text that has ended or goes on with such a character. -/
inductive Parted : List Char → Prop
  | ended : Parted []
  | cons {c : Char} (rest : List Char) (hc : isParting c = true) : Parted (c :: rest)

theorem Parted.comma (rest : List Char) : Parted (',' :: rest) :=
  .cons rest rfl

theorem Parted.head?_ne {tail : List Char} {c : Char} (h : Parted tail)
    (hc : isParting c = false) : tail.head? ≠ some c := by
  cases h with
  | ended => nofun
  | cons rest hparting =>
    rintro ⟨⟩
    rw [hc] at hparting
    cases hparting

theorem Trivia.parted {gap rest : List Char} (h : Trivia gap) (hrest : Parted rest) :
    Parted (gap ++ rest) := by
  cases h with
  | nil => exact hrest
  | cons first others =>
    cases first with
    | blank hblank => exact .cons _ (by simp [isParting, hblank])
    | comment => exact .cons _ rfl

/-- A text begins like another one as far as a piece in front of them can tell. A backslash protects
the character behind it, so that the place of the cut must not be behind a lone one. -/
inductive Alike : List Char → List Char → Prop
  | same (rest : List Char) : Alike rest rest
  | parted (rest : List Char) {tail : List Char} (h : Parted tail) : Alike rest tail
  | inside {begun : List Char} (rest : List Char) {tail : List Char} (h : Parted tail)
      (hne : begun ≠ []) (hlone : begun ≠ ['\\']) (hhyphen : begun ≠ ['-', '\\']) :
      Alike (begun ++ rest) (begun ++ tail)

/-- A text in front of which two texts that begin alike still do so. -/
structure Firm (text : List Char) : Prop where
  ne_nil : text ≠ []
  ne_lone : text ≠ ['\\']
  ne_hyphen : text ≠ ['-', '\\']

theorem Firm.append {front back : List Char} (h : Firm back) : Firm (front ++ back) := by
  obtain ⟨hne, hlone, hhyphen⟩ := h
  refine ⟨by simp [hne], fun heq => ?_, fun heq => ?_⟩
  · rcases List.append_eq_singleton_iff.mp heq with ⟨-, h⟩ | ⟨-, h⟩
    · exact hlone h
    · exact hne h
  · match front with
    | [] => exact hhyphen heq
    | [c] => simp at heq; exact hlone heq.2
    | c :: d :: front => simp at heq; exact hne heq.2.2.2

/-- A text that is a sequence of lexemes in front of everything does not end in a lone backslash. -/
theorem Whole.firm {text : List Char} (h : Whole text) (hne : text ≠ []) : Firm text := by
  obtain ⟨lexemes, rfl, hlexes⟩ := h
  have hlone (front : List Lexeme) (hfront : Lexes (front ++ [.escape ['\\']]) []) :
      spell lexemes ≠ spell (front ++ [.escape ['\\']]) := by
    intro heq
    obtain ⟨tail, rfl, htail⟩ := (hlexes []).split hfront (heq.trans (List.append_nil _).symm)
    have hnil : tail = [] := by
      cases tail with
      | nil => rfl
      | cons lexeme others =>
        have hlexeme := (lexes_append.mp (hlexes [])).2
        exact absurd (List.append_eq_nil_iff.mp htail).1 hlexeme.1.text_ne_nil
    subst hnil
    exact (hlexes ['a']).getLast?_ne (by decide) (by simp)
  refine ⟨hne, hlone [] ⟨.backslash, trivial⟩, hlone [.plain '-'] ?_⟩
  exact ⟨.plain (by decide) rfl nofun, .backslash, trivial⟩

namespace Alike

variable {rest rest' : List Char}

theorem of_firm {begun tail : List Char} (h : Firm begun) (rest : List Char) (htail : Parted tail) :
    Alike (begun ++ rest) (begun ++ tail) :=
  .inside rest htail h.ne_nil h.ne_lone h.ne_hyphen

theorem append {text : List Char} (hlike : Alike rest rest') (h : Firm text) :
    Alike (text ++ rest) (text ++ rest') := by
  cases hlike with
  | same => exact .same _
  | parted rest hparted => exact of_firm h rest hparted
  | inside rest hparted hne hlone hhyphen =>
    rw [← List.append_assoc, ← List.append_assoc]
    exact of_firm (Firm.append ⟨hne, hlone, hhyphen⟩) rest hparted

/-- A character that a piece can go on with stands in front of the second text only if it stands in
front of the first. -/
theorem head?_eq {c : Char} (hlike : Alike rest rest') (hc : isParting c = false)
    (h : rest'.head? = some c) : rest.head? = some c := by
  cases hlike with
  | same => exact h
  | parted rest hparted => exact absurd h (hparted.head?_ne hc)
  | inside rest hparted hne _ _ =>
    rwa [List.head?_append_of_ne_nil _ hne] at h ⊢

/-- The two texts agree as far as the second one reaches and a piece can go on. -/
theorem take_eq {n : Nat} (hlike : Alike rest rest') (hlength : n ≤ rest'.length)
    (h : ∀ c ∈ rest'.take n, isParting c = false) : rest.take n = rest'.take n := by
  have hnone {k : Nat} {tail : List Char} (hparted : Parted tail) (hk : k ≤ tail.length)
      (h : ∀ c ∈ tail.take k, isParting c = false) : k = 0 := by
    cases hparted with
    | ended => exact Nat.le_zero.mp hk
    | cons rest hc => cases k <;> simp_all
  cases hlike with
  | same => rfl
  | parted rest hparted =>
    obtain rfl := hnone hparted hlength h
    rfl
  | @inside begun rest tail hparted =>
    rw [List.length_append] at hlength
    rw [List.take_append, List.forall_mem_append] at h
    have hn : n - begun.length = 0 := hnone hparted (by omega) h.2
    rw [List.take_append, List.take_append, hn, List.take_zero, List.take_zero]

end Alike

/-- What a token begins with shows in the text of the token and the character behind it. -/
theorem AtToken.alike {text rest rest' : List Char} (h : AtToken (text ++ rest))
    (hlike : Alike rest rest') (hne : text ≠ []) : AtToken (text ++ rest') := by
  match text with
  | [c] => exact ⟨h.1, fun hslash hstar => h.2 hslash (hlike.head?_eq (by decide) hstar)⟩
  | c :: d :: text => exact ⟨h.1, h.2⟩

theorem head?_before_parenthesis (front rest rest' : List Char) :
    (front ++ ')' :: rest).head? = (front ++ ')' :: rest').head? := by
  cases front <;> rfl

/-- What stands behind a parenthesis does not matter to what begins in front of it. -/
theorem AtToken.before_parenthesis {front rest : List Char} (h : AtToken (front ++ ')' :: rest))
    (rest' : List Char) : AtToken (front ++ ')' :: rest') := by
  match front with
  | [] => exact atToken_of_ne (by decide) (by decide)
  | [c] => exact ⟨h.1, fun _ => by simp⟩
  | c :: d :: front => exact ⟨h.1, h.2⟩

/-! ### Names -/

theorem spanName_eq_nil_iff {text : List Char} :
    (spanName text).1 = [] ↔
      (∀ c rest, text ≠ '\\' :: c :: rest) ∧ ∀ c, text.head? = some c → isNameChar c = false := by
  fun_cases spanName text <;> simp_all

/-- A name ends in front of any text that begins with no name. -/
theorem spanName_append_of {text name after after' : List Char}
    (h : spanName text = (name, after)) (hafter : (spanName after').1 = []) :
    spanName (name ++ after') = (name, after') := by
  have hnil : spanName after' = ([], after') := by
    have := spanName_append after'
    rw [hafter, List.nil_append] at this
    exact Prod.ext hafter this
  fun_induction spanName text generalizing name after with
  | case1 c rest tail last htail ih =>
    cases h
    simp [spanName, ih htail]
  | case2 c rest hescape hname tail last htail ih =>
    cases h
    have hc : c ≠ '\\' := by rintro rfl; cases hname
    rw [List.cons_append, spanName.eq_def]
    split <;> simp_all
  | case3 c rest hescape hname => cases h; exact hnil
  | case4 => cases h; exact hnil

theorem spanName_after {text name after : List Char} (h : spanName text = (name, after)) :
    (spanName after).1 = [] := by
  fun_induction spanName text generalizing name after with
  | case1 c rest tail last htail ih => cases h; exact ih htail
  | case2 c rest hescape hname tail last htail ih => cases h; exact ih htail
  | case3 c rest hescape hname =>
    cases h
    rw [spanName.eq_def]
    split <;> simp_all
  | case4 => cases h; rfl

theorem Parted.spanName {tail : List Char} (h : Parted tail) : (Css.spanName tail).1 = [] := by
  cases h with
  | ended => rfl
  | cons rest hc => rcases eq_of_isParting hc with rfl | rfl | rfl | rfl | rfl | rfl | rfl <;> rfl

theorem Alike.spanName {rest rest' : List Char} (hlike : Alike rest rest')
    (h : (Css.spanName rest).1 = []) : (Css.spanName rest').1 = [] := by
  cases hlike with
  | same => exact h
  | parted rest hparted => exact hparted.spanName
  | @inside begun rest tail hparted hne hlone hhyphen =>
    rw [spanName_eq_nil_iff] at h ⊢
    obtain ⟨hescape, hname⟩ := h
    refine ⟨fun c others heq => ?_, ?_⟩
    · match begun with
      | [d] => simp at heq; exact hlone (by rw [heq.1])
      | d :: e :: begun => simp at heq; exact hescape e _ (by rw [heq.1]; rfl)
    · rwa [List.head?_append_of_ne_nil _ hne] at hname ⊢

/-- A name is no lone backslash. -/
theorem spanName_ne_lone (text : List Char) : (spanName text).1 ≠ ['\\'] := by
  fun_cases spanName text with
  | case1 => simp
  | case2 c rest hescape hname =>
    intro heq
    obtain ⟨rfl, -⟩ := List.cons_eq_cons.mp heq
    cases hname
  | case3 => simp
  | case4 => simp

theorem firm_of_beginsIdentifier {text : List Char} (h : beginsIdentifier text = true) :
    Firm (spanName text).1 := by
  refine ⟨spanName_ne_nil_of_beginsIdentifier h, spanName_ne_lone text, ?_⟩
  fun_cases spanName text with
  | case1 => simp
  | case2 c rest hescape hname tail last htail =>
    intro heq
    obtain ⟨-, htail'⟩ := List.cons_eq_cons.mp heq
    exact spanName_ne_lone rest (by rw [htail]; exact htail')
  | case3 => simp
  | case4 => simp

theorem spanName_cons {c : Char} {rest : List Char} (h : isNameChar c = true) :
    spanName (c :: rest) = (c :: (spanName rest).1, (spanName rest).2) := by
  have hc : c ≠ '\\' := by rintro rfl; cases h
  rw [spanName.eq_def]
  split <;> simp_all

/-- Characters of names are a name in front of a text that begins with none. -/
theorem spanName_of_all {name rest : List Char} (h : ∀ c ∈ name, isNameChar c = true)
    (hrest : (spanName rest).1 = []) : spanName (name ++ rest) = (name, rest) := by
  induction name with
  | nil =>
    have happend := spanName_append rest
    rw [hrest, List.nil_append] at happend
    exact Prod.ext hrest happend
  | cons c name ih =>
    rw [List.forall_mem_cons] at h
    rw [List.cons_append, spanName_cons h.1, ih h.2]

theorem atToken_of_isNameStart {c : Char} (h : isNameStart c = true) (rest : List Char) :
    AtToken (c :: rest) := by
  refine atToken_of_ne ?_ ?_
  · rw [Bool.eq_false_iff]
    intro hblank
    have hparting : isParting c = true := by simp [isParting, hblank]
    rcases eq_of_isParting hparting with rfl | rfl | rfl | rfl | rfl | rfl | rfl <;> cases h
  · rintro rfl
    cases h

theorem unescape_cons {c : Char} (hc : c ≠ '\\') (rest : List Char) :
    unescape (c :: rest) = c :: unescape rest := by
  rw [unescape]
  exact hc

theorem unescape_append {word : List Char} (h : ∀ c ∈ word, c ≠ '\\') (rest : List Char) :
    unescape (word ++ rest) = word ++ unescape rest := by
  induction word with
  | nil => rfl
  | cons c word ih =>
    rw [List.forall_mem_cons] at h
    rw [List.cons_append, unescape_cons h.1, ih h.2, List.cons_append]

/-- A text without backslashes stands for itself. -/
theorem unescape_word {word : List Char} (h : ∀ c ∈ word, c ≠ '\\') : unescape word = word := by
  have hword := unescape_append h []
  rwa [List.append_nil, unescape, List.append_nil] at hword

theorem beginsName_cons {c : Char} (hc : c ≠ '\\') (rest : List Char) :
    beginsName (c :: rest) = isNameStart c := by
  rw [beginsName.eq_def]
  split <;> simp_all

theorem beginsIdentifier_hyphen (rest : List Char) :
    beginsIdentifier ('-' :: rest) = (rest.head? == some '-' || beginsName rest) := by
  cases rest with
  | nil => rfl
  | cons c rest =>
    by_cases hc : c = '-'
    · subst hc; rfl
    · rw [beginsIdentifier.eq_def]
      simp [hc]

theorem beginsIdentifier_cons {c : Char} (hc : c ≠ '-') (rest : List Char) :
    beginsIdentifier (c :: rest) = beginsName (c :: rest) := by
  rw [beginsIdentifier.eq_def]
  split <;> simp_all

theorem beginsName_append {text : List Char} (h : beginsName text = true) (after : List Char) :
    beginsName ((spanName text).1 ++ after) = true := by
  fun_cases beginsName text with
  | case1 => simp [spanName, beginsName]
  | case2 c rest hescape =>
    have hc : c ≠ '\\' := by rintro rfl; cases rest <;> simp_all [beginsName, isNameStart]
    rw [beginsName_cons hc] at h
    rwa [spanName_cons (by simp [isNameChar, h]), List.cons_append, beginsName_cons hc]
  | case3 => cases h

/-- Whether a text begins with an identifier shows in the name that it begins with. -/
theorem beginsIdentifier_append {text : List Char} (h : beginsIdentifier text = true)
    (after : List Char) : beginsIdentifier ((spanName text).1 ++ after) = true := by
  cases text with
  | nil => cases h
  | cons c rest =>
    by_cases hc : c = '-'
    · subst hc
      rw [beginsIdentifier_hyphen, Bool.or_eq_true] at h
      rw [spanName_cons (by decide), List.cons_append, beginsIdentifier_hyphen, Bool.or_eq_true]
      rcases h with hhyphen | hname
      · obtain ⟨rest, rfl⟩ : ∃ tail, rest = '-' :: tail := by cases rest <;> simp_all
        rw [spanName_cons (by decide)]
        exact .inl rfl
      · exact .inr (beginsName_append hname after)
    · rw [beginsIdentifier_cons hc] at h
      have hname := beginsName_append h after
      obtain ⟨tail, htail⟩ : ∃ tail, (spanName (c :: rest)).1 = c :: tail := by
        by_cases hescape : c = '\\'
        · subst hescape
          cases rest with
          | nil => cases h
          | cons d rest => exact ⟨_, rfl⟩
        · rw [beginsName_cons hescape] at h
          exact ⟨_, by rw [spanName_cons (by simp [isNameChar, h])]⟩
      rw [htail] at hname ⊢
      rwa [List.cons_append, beginsIdentifier_cons hc]

namespace Parted

variable {tail : List Char} (h : Parted tail)

include h

theorem beginsName : Css.beginsName tail = false := by
  cases h with
  | ended => rfl
  | cons rest hc => rcases eq_of_isParting hc with rfl | rfl | rfl | rfl | rfl | rfl | rfl <;> rfl

theorem beginsIdentifier : Css.beginsIdentifier tail = false := by
  cases h with
  | ended => rfl
  | cons rest hc => rcases eq_of_isParting hc with rfl | rfl | rfl | rfl | rfl | rfl | rfl <;> rfl

end Parted

namespace Alike

variable {rest rest' : List Char}

theorem beginsName (hlike : Alike rest rest') (h : Css.beginsName rest = false) :
    Css.beginsName rest' = false := by
  cases hlike with
  | same => exact h
  | parted rest hparted => exact hparted.beginsName
  | @inside begun rest tail hparted hne hlone hhyphen =>
    match begun with
    | [d] =>
      have hd : d ≠ '\\' := by rintro rfl; exact hlone rfl
      rw [List.singleton_append, beginsName_cons hd] at h ⊢
      exact h
    | d :: e :: begun =>
      have hd : d ≠ '\\' := by rintro rfl; cases h
      rw [List.cons_append, beginsName_cons hd] at h ⊢
      exact h

theorem beginsIdentifier (hlike : Alike rest rest') (h : Css.beginsIdentifier rest = false) :
    Css.beginsIdentifier rest' = false := by
  cases hlike with
  | same => exact h
  | parted rest hparted => exact hparted.beginsIdentifier
  | @inside begun rest tail hparted hne hlone hhyphen =>
    match begun with
    | d :: begun =>
      by_cases hd : d = '-'
      · subst hd
        rw [List.cons_append, beginsIdentifier_hyphen, Bool.or_eq_false_iff] at h ⊢
        by_cases hbegun : begun = []
        · subst hbegun
          refine ⟨?_, hparted.beginsName⟩
          rw [beq_eq_false_iff_ne]
          exact hparted.head?_ne (by decide)
        · have hbegunLone : begun ≠ ['\\'] := fun heq => hhyphen (by rw [heq])
          have hbegunHyphen : begun ≠ ['-', '\\'] := by rintro rfl; simp at h
          refine ⟨?_, (inside rest hparted hbegun hbegunLone hbegunHyphen).beginsName h.2⟩
          rw [List.head?_append_of_ne_nil _ hbegun] at h ⊢
          exact h.1
      · rw [List.cons_append, beginsIdentifier_cons hd] at h ⊢
        exact (inside rest hparted hne hlone hhyphen).beginsName h

end Alike

/-! ### Numbers -/

namespace Numeral

/-- A text does not begin with a digit. -/
def NoDigit (text : List Char) : Prop :=
  ∀ c, text.head? = some c → c.isDigit = false

theorem noDigit_cons {c : Char} {rest : List Char} : NoDigit (c :: rest) ↔ c.isDigit = false := by
  simp [NoDigit]

theorem noDigit_of_parted {tail : List Char} (h : Parted tail) : NoDigit tail := by
  cases h with
  | ended => exact nofun
  | cons rest hc =>
    rcases eq_of_isParting hc with rfl | rfl | rfl | rfl | rfl | rfl | rfl <;>
      exact noDigit_cons.mpr (by decide)

theorem NoDigit.alike {rest rest' : List Char} (hlike : Alike rest rest') (h : NoDigit rest) :
    NoDigit rest' := by
  intro c hc
  cases hparting : isParting c with
  | false => exact h c (hlike.head?_eq hparting hc)
  | true => rcases eq_of_isParting hparting with rfl | rfl | rfl | rfl | rfl | rfl | rfl <;> decide

theorem spanDigits_of_noDigit {text : List Char} (h : NoDigit text) :
    spanDigits text = ([], text) := by
  cases text with
  | nil => rfl
  | cons c rest =>
    rw [noDigit_cons] at h
    simp [spanDigits, h]

theorem noDigit_of_spanDigits {text after : List Char} (h : spanDigits text = ([], after)) :
    NoDigit text := by
  intro c hc
  cases text with
  | nil => cases hc
  | cons d rest =>
    cases hc
    rw [Bool.eq_false_iff]
    intro hdigit
    simp [spanDigits, hdigit] at h

theorem spanDigits_append_of {text digits after after' : List Char}
    (h : spanDigits text = (digits, after)) (hafter : NoDigit after') :
    spanDigits (digits ++ after') = (digits, after') := by
  obtain ⟨rfl, -⟩ := Prod.mk.inj h
  have hall : ∀ c ∈ text.takeWhile Char.isDigit, c.isDigit = true := fun c hc =>
    List.mem_takeWhile_imp hc
  obtain ⟨hnil, hrest⟩ := Prod.mk.inj (spanDigits_of_noDigit hafter)
  unfold spanDigits
  rw [List.takeWhile_append_of_pos hall, List.dropWhile_append_of_pos hall, hnil, hrest,
    List.append_nil]

theorem noDigit_after {text digits after : List Char} (h : spanDigits text = (digits, after)) :
    NoDigit after := by
  obtain ⟨-, rfl⟩ := Prod.mk.inj h
  intro c hc
  have := List.head?_dropWhile_not Char.isDigit text
  rwa [hc] at this

/-! #### Fractions -/

theorem spanFraction_eq_nil_iff {text : List Char} :
    (spanFraction text).1 = [] ↔ ∀ rest, text = '.' :: rest → NoDigit rest := by
  unfold spanFraction
  split
  · rename_i rest
    split
    · rename_i hdigits
      simpa using noDigit_of_spanDigits hdigits
    · rename_i digits after hne hdigits
      simp only [reduceCtorEq, false_iff]
      intro h
      rw [spanDigits_of_noDigit (h rest rfl)] at hdigits
      exact hne (Prod.mk.inj hdigits).1.symm
  · rename_i hpoint
    simpa using fun rest heq => absurd heq (hpoint rest)

theorem spanFraction_of_eq_nil {text : List Char} (h : (spanFraction text).1 = []) :
    spanFraction text = ([], text) := by
  have := spanFraction_append text
  rw [h, List.nil_append] at this
  exact Prod.ext h this

theorem spanFraction_append_of {text fraction after after' : List Char}
    (h : spanFraction text = (fraction, after)) (hne : fraction ≠ []) (hafter : NoDigit after') :
    spanFraction (fraction ++ after') = (fraction, after') := by
  unfold spanFraction at h
  split at h
  · split at h
    · cases h; exact absurd rfl hne
    · rename_i digits rest hdigits hspan
      cases h
      rw [List.cons_append, spanFraction, spanDigits_append_of hspan hafter]
      split <;> simp_all
  · cases h; exact absurd rfl hne

theorem noDigit_after_fraction {text fraction after : List Char}
    (h : spanFraction text = (fraction, after)) (hne : fraction ≠ []) : NoDigit after := by
  unfold spanFraction at h
  split at h
  · split at h
    · cases h; exact absurd rfl hne
    · rename_i hspan
      cases h
      exact noDigit_after hspan
  · cases h; exact absurd rfl hne

theorem spanFraction_recut {begun rest tail : List Char} (htail : Parted tail)
    (h : (spanFraction (begun ++ rest)).1 = []) : (spanFraction (begun ++ tail)).1 = [] := by
  rw [spanFraction_eq_nil_iff] at h ⊢
  match begun with
  | [] =>
    rintro rest rfl
    exact absurd rfl (htail.head?_ne (c := '.') (by decide))
  | [c] =>
    rintro others heq
    obtain ⟨-, rfl⟩ := List.cons_eq_cons.mp heq
    exact noDigit_of_parted htail
  | c :: d :: begun =>
    rintro others heq
    obtain ⟨rfl, rfl⟩ := List.cons_eq_cons.mp heq
    have := h _ rfl
    simpa [NoDigit] using this

/-! #### Exponents -/

theorem spanExponent_eq_nil_iff {text : List Char} :
    (spanExponent text).1 = [] ↔
      ∀ c rest, text = c :: rest → c = 'e' ∨ c = 'E' → NoDigit (spanSign rest).2 := by
  unfold spanExponent
  split
  · rename_i c rest
    split
    · rename_i hmark
      dsimp only
      split
      · rename_i hdigits
        simpa using fun _ => noDigit_of_spanDigits hdigits
      · rename_i digits after hne hdigits
        simp only [List.cons_append, reduceCtorEq, false_iff]
        intro h
        rw [spanDigits_of_noDigit (h c rest rfl (by simpa using hmark))] at hdigits
        exact hne (Prod.mk.inj hdigits).1.symm
    · rename_i hmark
      simp_all
  · simp

theorem spanExponent_of_eq_nil {text : List Char} (h : (spanExponent text).1 = []) :
    spanExponent text = ([], text) := by
  have := spanExponent_append text
  rw [h, List.nil_append] at this
  exact Prod.ext h this

theorem spanSign_snd (c : Char) (rest : List Char) :
    (spanSign (c :: rest)).2 = if c = '+' ∨ c = '-' then rest else c :: rest := by
  unfold spanSign
  split
  · rename_i heq
    cases heq
    rfl
  · rename_i heq
    cases heq
    rfl
  · rename_i hplus hminus
    have hc : ¬ (c = '+' ∨ c = '-') := by
      rintro (rfl | rfl)
      · exact hplus rest rfl
      · exact hminus rest rfl
    rw [if_neg hc]

theorem spanSign_cons_of_digit {text digits after : List Char}
    (h : spanDigits text = (digits, after)) (hne : digits ≠ []) (after' : List Char) :
    spanSign (digits ++ after') = ([], digits ++ after') := by
  obtain ⟨rfl, -⟩ := Prod.mk.inj h
  cases text with
  | nil => exact absurd rfl hne
  | cons c rest =>
    have hc : c.isDigit = true := by
      by_contra hc
      simp [hc] at hne
    rw [List.takeWhile_cons_of_pos hc, List.cons_append, spanSign.eq_def]
    split
    · simp_all
    · simp_all
    · rfl

theorem spanExponent_append_of {text exponent after after' : List Char}
    (h : spanExponent text = (exponent, after)) (hne : exponent ≠ []) (hafter : NoDigit after') :
    spanExponent (exponent ++ after') = (exponent, after') := by
  unfold spanExponent at h
  split at h
  · rename_i c rest
    split at h
    · rename_i hmark
      dsimp only at h
      split at h
      · cases h; exact absurd rfl hne
      · rename_i digits last hdigits hspan
        cases h
        have hsign : spanSign ((spanSign rest).1 ++ (digits ++ after')) =
            ((spanSign rest).1, digits ++ after') := by
          have hnosign := spanSign_cons_of_digit hspan hdigits after'
          fun_cases spanSign rest with
          | case1 => rfl
          | case2 => rfl
          | case3 => exact hnosign
        rw [List.cons_append, List.cons_append, List.append_assoc, spanExponent, if_pos hmark]
        dsimp only
        rw [hsign]
        dsimp only
        rw [spanDigits_append_of hspan hafter]
        split <;> simp_all
    · cases h; exact absurd rfl hne
  · cases h; exact absurd rfl hne

theorem noDigit_after_exponent {text exponent after : List Char}
    (h : spanExponent text = (exponent, after)) (hne : exponent ≠ []) : NoDigit after := by
  unfold spanExponent at h
  split at h
  · split at h
    · dsimp only at h
      split at h
      · cases h; exact absurd rfl hne
      · rename_i hspan
        cases h
        exact noDigit_after hspan
    · cases h; exact absurd rfl hne
  · cases h; exact absurd rfl hne

theorem spanSign_of_parted {tail : List Char} (h : Parted tail) : (spanSign tail).2 = tail := by
  cases h with
  | ended => rfl
  | cons rest hc =>
    rcases eq_of_isParting hc with rfl | rfl | rfl | rfl | rfl | rfl | rfl <;> rfl

theorem spanFraction_of_parted {tail : List Char} (h : Parted tail) :
    (spanFraction tail).1 = [] := by
  rw [spanFraction_eq_nil_iff]
  rintro rest rfl
  exact absurd rfl (h.head?_ne (c := '.') (by decide))

theorem spanExponent_recut {begun rest tail : List Char} (htail : Parted tail)
    (h : (spanExponent (begun ++ rest)).1 = []) : (spanExponent (begun ++ tail)).1 = [] := by
  rw [spanExponent_eq_nil_iff] at h ⊢
  intro c others heq hmark
  match begun with
  | [] =>
    have hhead : tail.head? = some c := by rw [← List.nil_append tail, heq]; rfl
    exact absurd hhead (htail.head?_ne (by rcases hmark with rfl | rfl <;> decide))
  | [d] =>
    obtain ⟨-, rfl⟩ := List.cons_eq_cons.mp heq
    rw [show [].append tail = tail from rfl, spanSign_of_parted htail]
    exact noDigit_of_parted htail
  | d :: e :: begun =>
    obtain ⟨rfl, rfl⟩ := List.cons_eq_cons.mp heq
    have hold : NoDigit (spanSign (e :: (begun ++ rest))).2 := h d _ rfl hmark
    change NoDigit (spanSign (e :: (begun ++ tail))).2
    rw [spanSign_snd] at hold ⊢
    split at hold
    · rename_i hsign
      rw [if_pos hsign]
      cases begun with
      | nil => exact noDigit_of_parted htail
      | cons f begun => simpa [NoDigit] using hold
    · rename_i hsign
      rw [if_neg hsign]
      simpa [NoDigit] using hold

/-! #### Whole numbers -/

section Alike

variable {rest rest' : List Char} (hlike : Alike rest rest')

include hlike

theorem spanFraction_alike (h : (spanFraction rest).1 = []) : (spanFraction rest').1 = [] := by
  cases hlike with
  | same => exact h
  | parted rest hparted => exact spanFraction_of_parted hparted
  | inside rest hparted => exact spanFraction_recut hparted h

theorem spanExponent_alike (h : (spanExponent rest).1 = []) : (spanExponent rest').1 = [] := by
  cases hlike with
  | same => exact h
  | parted rest hparted =>
    exact spanExponent_recut hparted (show (spanExponent ([] ++ rest)).1 = [] from h)
  | inside rest hparted => exact spanExponent_recut hparted h

end Alike

theorem eq_point_of_fraction {text fraction after : List Char}
    (h : spanFraction text = (fraction, after)) (hne : fraction ≠ []) :
    ∃ digits, fraction = '.' :: digits := by
  unfold spanFraction at h
  split at h
  · split at h
    · cases h; exact absurd rfl hne
    · cases h; exact ⟨_, rfl⟩
  · cases h; exact absurd rfl hne

theorem eq_mark_of_exponent {text exponent after : List Char}
    (h : spanExponent text = (exponent, after)) (hne : exponent ≠ []) :
    ∃ c digits, exponent = c :: digits ∧ (c = 'e' ∨ c = 'E') := by
  unfold spanExponent at h
  split at h
  · split at h
    · rename_i hmark
      dsimp only at h
      split at h
      · cases h; exact absurd rfl hne
      · cases h; exact ⟨_, _, rfl, by simpa using hmark⟩
    · cases h; exact absurd rfl hne
  · cases h; exact absurd rfl hne

theorem after_of_spanFraction_nil {text after : List Char} (h : spanFraction text = ([], after)) :
    after = text := by
  have := spanFraction_append text
  rwa [h] at this

theorem after_of_spanExponent_nil {text after : List Char} (h : spanExponent text = ([], after)) :
    after = text := by
  have := spanExponent_append text
  rwa [h] at this

theorem isDigit_of_spanDigits {text digits after : List Char}
    (h : spanDigits text = (digits, after))
    {c : Char} (hc : c ∈ digits) : c.isDigit = true := by
  obtain ⟨rfl, -⟩ := Prod.mk.inj h
  exact List.mem_takeWhile_imp hc

theorem spanSign_append_of {text sign after after' : List Char} (h : spanSign text = (sign, after))
    (hafter : ∀ c, after'.head? = some c → c ≠ '+' ∧ c ≠ '-') :
    spanSign (sign ++ after') = (sign, after') := by
  fun_cases spanSign text with
  | case1 rest => cases h; rfl
  | case2 rest => cases h; rfl
  | case3 =>
    have hsign : sign = [] := by
      unfold spanSign at h
      split at h <;> simp_all
    subst hsign
    rw [List.nil_append]
    fun_cases spanSign after' with
    | case1 rest => exact absurd rfl (hafter '+' rfl).1
    | case2 rest => exact absurd rfl (hafter '-' rfl).2
    | case3 => rfl

/-! #### The parts of a number in front of a text that begins alike -/

section Parts

variable {unsigned whole afterWhole fraction afterFraction exponent after rest' : List Char}

theorem spanExponent_of_alike (h : spanExponent afterFraction = (exponent, after))
    (hlike : Alike after rest') : spanExponent (exponent ++ rest') = (exponent, rest') := by
  by_cases hne : exponent = []
  · subst hne
    obtain rfl := after_of_spanExponent_nil h
    exact spanExponent_of_eq_nil (spanExponent_alike hlike (by rw [h]))
  · exact spanExponent_append_of h hne ((noDigit_after_exponent h hne).alike hlike)

theorem noDigit_exponent_of_alike (h : spanExponent afterFraction = (exponent, after))
    (hlike : Alike after rest') (hdigit : NoDigit afterFraction) : NoDigit (exponent ++ rest') := by
  by_cases hne : exponent = []
  · subst hne
    obtain rfl := after_of_spanExponent_nil h
    exact hdigit.alike hlike
  · obtain ⟨c, digits, rfl, hmark⟩ := eq_mark_of_exponent h hne
    rw [List.cons_append, noDigit_cons]
    rcases hmark with rfl | rfl <;> decide

theorem spanFraction_of_alike (h : spanFraction afterWhole = (fraction, afterFraction))
    (hexponent : spanExponent afterFraction = (exponent, after)) (hlike : Alike after rest') :
    spanFraction (fraction ++ (exponent ++ rest')) = (fraction, exponent ++ rest') := by
  by_cases hne : fraction = []
  · subst hne
    obtain rfl := after_of_spanFraction_nil h
    apply spanFraction_of_eq_nil
    by_cases hexp : exponent = []
    · subst hexp
      obtain rfl := after_of_spanExponent_nil hexponent
      exact spanFraction_alike hlike (by rw [h])
    · obtain ⟨c, digits, rfl, hmark⟩ := eq_mark_of_exponent hexponent hexp
      rw [List.nil_append, spanFraction_eq_nil_iff]
      rintro others heq
      obtain ⟨rfl, -⟩ := List.cons_eq_cons.mp heq
      simp at hmark
  · exact spanFraction_append_of h hne
      (noDigit_exponent_of_alike hexponent hlike (noDigit_after_fraction h hne))

theorem spanDigits_of_alike (h : spanDigits unsigned = (whole, afterWhole))
    (hfraction : spanFraction afterWhole = (fraction, afterFraction))
    (hexponent : spanExponent afterFraction = (exponent, after)) (hlike : Alike after rest') :
    spanDigits (whole ++ (fraction ++ (exponent ++ rest'))) =
      (whole, fraction ++ (exponent ++ rest')) := by
  apply spanDigits_append_of h
  by_cases hne : fraction = []
  · subst hne
    obtain rfl := after_of_spanFraction_nil hfraction
    rw [List.nil_append]
    exact noDigit_exponent_of_alike hexponent hlike (noDigit_after h)
  · obtain ⟨digits, rfl⟩ := eq_point_of_fraction hfraction hne
    rw [List.cons_append, noDigit_cons]
    decide

/-- A number that has digits does not go on with another sign. -/
theorem ne_sign_of_number (hwhole : spanDigits unsigned = (whole, afterWhole))
    (hfraction : spanFraction afterWhole = (fraction, afterFraction))
    (hsome : ¬ (whole.isEmpty && fraction.isEmpty) = true) {c : Char}
    (hc : (whole ++ (fraction ++ rest')).head? = some c) : c ≠ '+' ∧ c ≠ '-' := by
  cases whole with
  | nil =>
    have hne : fraction ≠ [] := by rintro rfl; exact hsome rfl
    obtain ⟨digits, rfl⟩ := eq_point_of_fraction hfraction hne
    cases hc
    decide
  | cons d whole =>
    cases hc
    have hd := isDigit_of_spanDigits hwhole (List.mem_cons_self ..)
    constructor <;> (rintro rfl; cases hd)

end Parts

end Numeral

namespace Cursor

open Numeral

variable {cur next : Cursor}

theorem numeral?_eq_none_iff :
    cur.numeral? = none ↔
      NoDigit (spanSign cur.rest).2 ∧ (spanFraction (spanSign cur.rest).2).1 = [] := by
  unfold numeral?
  dsimp only
  constructor
  · intro h
    split at h
    · rename_i hempty
      rw [Bool.and_eq_true, List.isEmpty_iff, List.isEmpty_iff] at hempty
      obtain ⟨hwhole, hfraction⟩ := hempty
      have hdigit : NoDigit (spanSign cur.rest).2 :=
        noDigit_of_spanDigits (Prod.ext hwhole rfl)
      rw [spanDigits_of_noDigit hdigit] at hfraction
      exact ⟨hdigit, hfraction⟩
    · cases h
  · rintro ⟨hdigit, hfraction⟩
    rw [spanDigits_of_noDigit hdigit]
    simp [hfraction]

/-- Where no number begins, none begins in a text that begins alike. -/
theorem numeral?_none_alike {rest' : List Char} (h : cur.numeral? = none)
    (hlike : Alike cur.rest rest') (offset : Nat) : (mk offset rest').numeral? = none := by
  rw [numeral?_eq_none_iff] at h ⊢
  obtain ⟨hdigit, hfraction⟩ := h
  generalize cur.rest = rest at hlike hdigit hfraction
  cases hlike with
  | same => exact ⟨hdigit, hfraction⟩
  | parted rest hparted =>
    rw [spanSign_of_parted hparted]
    exact ⟨noDigit_of_parted hparted, spanFraction_of_parted hparted⟩
  | @inside begun rest tail hparted hne =>
    cases begun with
    | nil => exact absurd rfl hne
    | cons c begun =>
      rw [List.cons_append, spanSign_snd] at hdigit hfraction ⊢
      split at hdigit
      · rename_i hsign
        rw [if_pos hsign] at hfraction ⊢
        refine ⟨?_, spanFraction_recut hparted hfraction⟩
        cases begun with
        | nil => exact noDigit_of_parted hparted
        | cons d begun => simpa [NoDigit] using hdigit
      · rename_i hsign
        rw [if_neg hsign] at hfraction ⊢
        refine ⟨by simpa [NoDigit] using hdigit, ?_⟩
        rw [← List.cons_append] at hfraction ⊢
        exact spanFraction_recut hparted hfraction

/-- A number is read in front of any text that begins alike. -/
theorem numeral?_recut {number rest' : List Char} (h : cur.numeral? = some (number, next))
    (hlike : Alike next.rest rest') (offset : Nat) :
    (mk offset (number ++ rest')).numeral? = some (number, ⟨offset + size number, rest'⟩) := by
  unfold numeral? at h
  dsimp only at h
  rcases hsign : spanSign cur.rest with ⟨sign, unsigned⟩
  rcases hwhole : spanDigits unsigned with ⟨whole, afterWhole⟩
  rcases hfraction : spanFraction afterWhole with ⟨fraction, afterFraction⟩
  rcases hexponent : spanExponent afterFraction with ⟨exponent, after⟩
  simp only [hsign, hwhole, hfraction, hexponent] at h
  split at h
  · cases h
  rename_i hsome
  cases h
  change Alike after rest' at hlike
  have hafterSign : spanSign (sign ++ (whole ++ (fraction ++ (exponent ++ rest')))) =
      (sign, whole ++ (fraction ++ (exponent ++ rest'))) :=
    spanSign_append_of hsign fun c hc => ne_sign_of_number hwhole hfraction hsome hc
  unfold numeral?
  simp only [List.append_assoc, hafterSign, spanDigits_of_alike hwhole hfraction hexponent hlike,
    spanFraction_of_alike hfraction hexponent hlike, spanExponent_of_alike hexponent hlike]
  rw [if_neg hsome]
  simp [pass]

/-! ### Pieces that begin with a word or a number -/

theorem Reads.unique {s t : List Char} (h : Reads cur s next) (h' : Reads cur t next) : s = t :=
  List.append_cancel_right (h.rest_eq.symm.trans h'.rest_eq)

theorem identifier?_recut {name rest' : List Char} (h : cur.identifier? = some (name, next))
    (hafter : (spanName rest').1 = []) (offset : Nat) :
    (mk offset (name ++ rest')).identifier? = some (name, ⟨offset + size name, rest'⟩) := by
  unfold identifier? at h
  split at h
  · rename_i hbegins
    cases h
    have hname : spanName (cur.name.1 ++ rest') = (cur.name.1, rest') :=
      spanName_append_of rfl hafter
    rw [identifier?, if_pos (beginsIdentifier_append hbegins rest')]
    unfold name at hname ⊢
    dsimp only at hname ⊢
    rw [hname]
    rfl
  · cases h

theorem identifier?_eq_none_iff : cur.identifier? = none ↔ beginsIdentifier cur.rest = false := by
  unfold identifier?
  split <;> simp_all

theorem firm_of_identifier? {name : List Char} (h : cur.identifier? = some (name, next)) :
    Firm name := by
  unfold identifier? at h
  split at h
  · rename_i hbegins
    cases h
    exact firm_of_beginsIdentifier hbegins
  · cases h

theorem spanName_after_identifier? {name : List Char} (h : cur.identifier? = some (name, next)) :
    (spanName next.rest).1 = [] := by
  unfold identifier? at h
  split at h
  · cases h
    exact spanName_after rfl
  · cases h

theorem char?_eq_none_iff {c : Char} : cur.char? c = none ↔ cur.rest.head? ≠ some c := by
  unfold char?
  split
  · rename_i hrest
    rw [hrest]
    simp
  · rename_i hrest
    simp [hrest]

theorem char?_of_cons {c : Char} {rest : List Char} (h : cur.rest = c :: rest) :
    cur.char? c = some (cur.pass [c] rest) := by
  unfold char?
  rw [h]
  simp

theorem numeric?_eq_none_iff : cur.numeric? = none ↔ cur.numeral? = none := by
  unfold numeric?
  cases hnumeral : cur.numeral? with
  | none => simp
  | some found =>
    simp only [Option.bind_eq_bind, Option.bind_some, reduceCtorEq, iff_false]
    split
    · simp
    · split <;> simp

/-- A number is read with its unit in front of any text that begins alike. -/
theorem numeric?_recut {token : Token} {taken rest' : List Char}
    (h : cur.numeric? = some (token, next)) (hreads : Reads cur taken next)
    (hlike : Alike next.rest rest') (offset : Nat) :
    (mk offset (taken ++ rest')).numeric? = some (token, ⟨offset + size taken, rest'⟩) := by
  simp only [numeric?, bind, Option.bind_eq_some_iff, Prod.exists] at h
  obtain ⟨digits, after, hnumeral, h⟩ := h
  have hdigits := (reads_numeral? hnumeral).1
  split at h
  · rename_i last hpercent
    cases h
    have hpercentReads := reads_char? hpercent
    obtain rfl := hreads.unique (hdigits.trans hpercentReads)
    have hafter : Alike after.rest ('%' :: rest') := by
      rw [hpercentReads.rest_eq]
      exact hlike.append ⟨by simp, by simp, by simp⟩
    rw [List.append_assoc, List.singleton_append, numeric?, numeral?_recut hnumeral hafter]
    simp [char?, pass, Nat.add_assoc]
  · rename_i hpercent
    rw [char?_eq_none_iff] at hpercent
    split at h
    · rename_i unit last hunit
      cases h
      have hunitReads := (reads_identifier? hunit).1
      obtain rfl := hreads.unique (hdigits.trans hunitReads)
      have hafter : Alike after.rest (unit ++ rest') := by
        rw [hunitReads.rest_eq]
        exact hlike.append (firm_of_identifier? hunit)
      have hhead : (mk (offset + size digits) (unit ++ rest')).char? '%' = none :=
        char?_eq_none_iff.mpr fun hc => hpercent (hafter.head?_eq (by decide) hc)
      have hname := identifier?_recut hunit (hlike.spanName (spanName_after_identifier? hunit))
        (offset + size digits)
      rw [List.append_assoc, numeric?, numeral?_recut hnumeral hafter]
      simp [hhead, hname, Nat.add_assoc]
    · rename_i hunit
      cases h
      obtain rfl := hreads.unique hdigits
      rw [identifier?_eq_none_iff] at hunit
      have hhead : (mk (offset + size taken) rest').char? '%' = none :=
        char?_eq_none_iff.mpr fun hc => hpercent (hlike.head?_eq (by decide) hc)
      have hnone : (mk (offset + size taken) rest').identifier? = none :=
        identifier?_eq_none_iff.mpr (hlike.beginsIdentifier hunit)
      rw [numeric?, numeral?_recut hnumeral hlike]
      simp [hhead, hnone]

/-- Where a word is not read, it is not read in a text that begins alike. -/
theorem word?_none_alike {word rest' : List Char} (hword : ∀ c ∈ word, isParting c = false)
    (h : cur.word? word = none) (hlike : Alike cur.rest rest') (offset : Nat) :
    (mk offset rest').word? word = none := by
  unfold word? at h ⊢
  simp only [List.splitAt_eq] at h ⊢
  split
  · rename_i hsame
    rw [beq_iff_eq] at hsame
    have hlength : word.length ≤ rest'.length := by
      have := congrArg List.length hsame
      rw [List.length_map, List.length_take] at this
      omega
    have hnone : ∀ c ∈ rest'.take word.length, isParting c = false := by
      intro c hmem
      rw [Bool.eq_false_iff]
      intro hparting
      have hc := hword c.toLower (hsame ▸ List.mem_map_of_mem hmem)
      rcases eq_of_isParting hparting with rfl | rfl | rfl | rfl | rfl | rfl | rfl <;> cases hc
    rw [← hlike.take_eq hlength hnone] at hsame
    rw [if_pos (by simpa using hsame)] at h
    cases h
  · rfl

/-! ### Addresses -/

/-- Where no `url(` begins, none begins in a text that begins alike. -/
theorem url?_none_alike {rest' : List Char} (h : cur.word? ['u', 'r', 'l', '('] = none)
    (hlike : Alike cur.rest rest') (offset : Nat) : (mk offset rest').url? = none := by
  have hletters : ∀ c ∈ ['u', 'r', 'l', '('], isParting c = false := by simp [isParting]
  rw [url?, word?_none_alike hletters h hlike offset]
  rfl

theorem quoted?_eq_some_iff {text : String} :
    cur.quoted? = some (text, next) ↔
      ∃ quoted : List Char, text = contents quoted ∧
        cur.lexeme? = .ok (some (.quoted quoted, next)) := by
  unfold quoted?
  split
  · rename_i found after hlexeme
    rw [hlexeme]
    constructor
    · intro h
      cases h
      exact ⟨found, rfl, rfl⟩
    · rintro ⟨quoted, rfl, heq⟩
      cases heq
      rfl
  · rename_i hnone
    simp only [reduceCtorEq, false_iff]
    rintro ⟨quoted, -, heq⟩
    exact hnone _ _ heq

/-- A string is read in front of any text. -/
theorem quoted?_recut {text : String} {taken : List Char} (h : cur.quoted? = some (text, next))
    (hreads : Reads cur taken next) (offset : Nat) (rest' : List Char) :
    (mk offset (taken ++ rest')).quoted? = some (text, ⟨offset + size taken, rest'⟩) := by
  obtain ⟨quoted, rfl, hlexeme⟩ := quoted?_eq_some_iff.mp h
  obtain ⟨hbefore, hquoted⟩ := lexeme?_eq_ok_some_iff.mp hlexeme
  obtain rfl := hreads.unique hquoted
  refine quoted?_eq_some_iff.mpr ⟨_, rfl, lexeme?_of_before ?_ ⟨rfl, rfl⟩⟩
  cases hbefore with
  | quoted hquote hclose => exact .quoted hquote hclose

theorem word?_recut {word taken : List Char} (h : cur.word? word = some next)
    (hreads : Reads cur taken next) (rest' : List Char) (offset : Nat) :
    (mk offset (taken ++ rest')).word? word = some ⟨offset + size taken, rest'⟩ := by
  unfold word? at h
  simp only [List.splitAt_eq] at h
  split at h <;> cases h
  rename_i hsame
  obtain rfl := hreads.unique (reads_pass (List.take_append_drop _ _).symm)
  have hlength : (cur.rest.take word.length).length = word.length := by
    have := congrArg List.length (beq_iff_eq.mp hsame)
    rwa [List.length_map] at this
  generalize cur.rest.take word.length = taken at hsame hlength ⊢
  have htake : (taken ++ rest').take word.length = taken := by
    rw [← hlength, List.take_left]
  have hdrop : (taken ++ rest').drop word.length = rest' := by
    rw [← hlength, List.drop_left]
  simp only [word?, List.splitAt_eq, htake, hdrop, if_pos hsame]
  rfl

theorem skipTrivia?_eq_some_iff :
    cur.skipTrivia.toOption = some next ↔ cur.skipTrivia = .ok next := by
  cases cur.skipTrivia <;> simp [Except.toOption]

/-- The address in front of a closing parenthesis is read in front of any other one. -/
theorem address?_recut {address : String} {taken gap rest : List Char}
    (h : cur.address? = some (address, next)) (hreads : Reads cur taken next) (hgap : Trivia gap)
    (hnext : next.rest = gap ++ ')' :: rest) (offset : Nat) (rest' : List Char) :
    (mk offset (taken ++ (gap ++ ')' :: rest'))).address? =
      some (address, ⟨offset + size taken, gap ++ ')' :: rest'⟩) := by
  have hhead : (taken ++ (gap ++ ')' :: rest')).head? = cur.rest.head? := by
    rw [hreads.rest_eq, hnext, ← List.append_assoc, ← List.append_assoc]
    exact head?_before_parenthesis ..
  unfold address? at h ⊢
  rw [hhead]
  split at h
  · rename_i hquote
    rw [if_pos hquote, quoted?_recut h hreads]
  · rename_i hquote
    cases h
    rw [if_neg hquote]
    obtain rfl := hreads.unique (reads_pass List.takeWhile_append_dropWhile.symm)
    have hall : ∀ c ∈ cur.rest.takeWhile (· != ')'), (c != ')') = true := fun c hc =>
      List.mem_takeWhile_imp (p := (· != ')')) hc
    -- the address reaches up to the parenthesis, so that no trivia stand in front of it
    obtain rfl : gap = [] := by
      have hstop := List.head?_dropWhile_not (· != ')') cur.rest
      change cur.rest.dropWhile (· != ')') = _ at hnext
      rw [hnext] at hstop
      cases hgap with
      | nil => rfl
      | cons first others =>
        cases first with
        | blank hblank =>
          simp at hstop
          rw [hstop] at hblank
          cases hblank
        | comment => simp at hstop
    simp only [bareAddress, List.nil_append, List.takeWhile_append_of_pos hall,
      List.dropWhile_append_of_pos hall, pass]
    simp

/-- A whole address is read in front of any text. -/
theorem url?_recut {token : Token} {taken : List Char} (h : cur.url? = some (token, next))
    (hreads : Reads cur taken next) (offset : Nat) (rest' : List Char) :
    (mk offset (taken ++ rest')).url? = some (token, ⟨offset + size taken, rest'⟩) := by
  simp only [url?, bind, Option.bind_eq_some_iff, pure, Option.some.injEq, Prod.mk.injEq,
    Prod.exists] at h
  obtain ⟨inside, hword, begun, hbegun, address, ended, haddress, close, hclose, last, hlast,
    rfl, rfl⟩ := h
  obtain ⟨word, hwordReads, -⟩ := reads_word? hword
  obtain ⟨gap, hgap, hgapReads, htoken⟩ :=
    skipTrivia_eq_ok_iff.mp (skipTrivia?_eq_some_iff.mp hbegun)
  obtain ⟨inner, hinnerReads⟩ := reads_address? haddress
  obtain ⟨blanks, hblanks, hblanksReads, -⟩ :=
    skipTrivia_eq_ok_iff.mp (skipTrivia?_eq_some_iff.mp hclose)
  have hparen := reads_char? hlast
  obtain rfl := hreads.unique
    ((((hwordReads.trans hgapReads).trans hinnerReads).trans hblanksReads).trans hparen)
  have hended : ended.rest = blanks ++ ')' :: last.rest := by
    rw [hblanksReads.rest_eq, hparen.rest_eq]
    rfl
  have htoken' : AtToken (inner ++ (blanks ++ ')' :: rest')) := by
    rw [hinnerReads.rest_eq, hended, ← List.append_assoc] at htoken
    rw [← List.append_assoc]
    exact htoken.before_parenthesis rest'
  have hbegun' : (mk (offset + size word) (gap ++ (inner ++ (blanks ++ ')' :: rest')))).skipTrivia =
      .ok ⟨offset + size word + size gap, inner ++ (blanks ++ ')' :: rest')⟩ :=
    skipTrivia_eq_ok_iff.mpr ⟨gap, hgap, ⟨rfl, rfl⟩, htoken'⟩
  have haddress' := address?_recut haddress hinnerReads hblanks hended
    (offset + size word + size gap) rest'
  have hclose' : (mk (offset + size word + size gap + size inner)
      (blanks ++ ')' :: rest')).skipTrivia =
      .ok ⟨offset + size word + size gap + size inner + size blanks, ')' :: rest'⟩ :=
    skipTrivia_eq_ok_iff.mpr ⟨blanks, hblanks, ⟨rfl, rfl⟩, atToken_of_ne (by decide) (by decide)⟩
  have hlast' : (mk (offset + size word + size gap + size inner + size blanks)
      (')' :: rest')).char? ')' = some _ := char?_of_cons rfl
  simp only [List.append_assoc, List.singleton_append, url?, bind, word?_recut hword hwordReads,
    Option.bind_some, hbegun', haddress', hclose', hlast', Except.toOption, pass, pure,
    Text.size_append]
  simp only [Nat.add_assoc]

theorem firm_of_url? {token : Token} {taken : List Char} (h : cur.url? = some (token, next))
    (hreads : Reads cur taken next) : Firm taken := by
  obtain ⟨front, hfront⟩ := reads_url? h
  obtain rfl := hreads.unique hfront
  exact Firm.append ⟨by simp, by simp, by simp⟩

/-! ### Any piece -/

/-- An address is a token, and it begins with a letter. -/
theorem eq_url_of_url? {token : Token} (h : cur.url? = some (token, next)) :
    (∃ address, token = .url address) ∧ ∃ c rest, cur.rest = c :: rest ∧ c.toLower = 'u' := by
  simp only [url?, bind, Option.bind_eq_some_iff, pure, Option.some.injEq, Prod.mk.injEq,
    Prod.exists] at h
  obtain ⟨inside, hword, -, -, address, -, -, -, -, -, -, rfl, -⟩ := h
  obtain ⟨taken, hreads, -, hlower⟩ := reads_word? hword
  refine ⟨⟨address, rfl⟩, ?_⟩
  cases taken with
  | nil => cases hlower
  | cons c taken => exact ⟨c, taken ++ inside.rest, hreads.rest_eq, (List.cons_eq_cons.mp hlower).1⟩

theorem piece?_of_letter {c : Char} {rest : List Char} (hrest : cur.rest = c :: rest)
    (hc : c.toLower = 'u') : cur.piece? = .ok (some (cur.otherPiece c rest)) := by
  have hquote : isQuote c = false := by
    rw [Bool.eq_false_iff]
    intro hquote
    simp only [isQuote, Bool.or_eq_true, beq_iff_eq] at hquote
    rcases hquote with rfl | rfl <;> exact absurd hc (by decide)
  unfold piece?
  rw [hrest]
  simp only [hquote, Bool.false_eq_true, if_false]
  split
  · exact absurd hc (by decide)
  · exact absurd hc (by decide)
  · exact absurd hc (by decide)
  · exact absurd hc (by decide)
  · rfl

theorem piece?_of_url? {token : Token} (h : cur.url? = some (token, next)) :
    cur.piece? = .ok (some (.token token, next)) := by
  obtain ⟨-, c, rest, hrest, hc⟩ := eq_url_of_url? h
  rw [piece?_of_letter hrest hc, otherPiece, h]

theorem url?_none_of_piece? {piece : Piece} (h : cur.piece? = .ok (some (piece, next)))
    (hpiece : ∀ address, piece ≠ .token (.url address)) : cur.url? = none := by
  cases hurl : cur.url? with
  | none => rfl
  | some found =>
    obtain ⟨⟨address, haddress⟩, -⟩ := eq_url_of_url? hurl
    have htoken := piece?_of_url? hurl
    rw [h] at htoken
    cases htoken
    exact absurd (congrArg Piece.token haddress) (hpiece address)

/-- An identifier is read as a word or the opening of a function in front of any text that begins
alike. -/
theorem word_recut {name : List Char} {named : Cursor} {piece : Piece} {taken rest' : List Char}
    (hname : cur.identifier? = some (name, named)) (h : named.word name = (piece, next))
    (hreads : Reads cur taken next) (hlike : Alike next.rest rest') (offset : Nat) :
    ∃ rest, (mk offset (taken ++ rest')).identifier? = some (name, ⟨offset + size name, rest⟩) ∧
      (mk (offset + size name) rest).word name = (piece, ⟨offset + size taken, rest'⟩) := by
  have hnamed := (reads_identifier? hname).1
  unfold word at h
  dsimp only at h
  split at h
  · rename_i hparen
    cases h
    have hopen := reads_char? hparen
    obtain rfl := hreads.unique (hnamed.trans hopen)
    refine ⟨'(' :: rest', ?_, ?_⟩
    · rw [List.append_assoc]
      exact identifier?_recut hname rfl offset
    · simp [word, char?, pass, Nat.add_assoc]
  · rename_i hparen
    cases h
    obtain rfl := hreads.unique hnamed
    have hnone : (mk (offset + size taken) rest').char? '(' = none := by
      rw [char?_eq_none_iff] at hparen ⊢
      exact fun hc => hparen (hlike.head?_eq (by decide) hc)
    refine ⟨rest',
      identifier?_recut hname (hlike.spanName (spanName_after_identifier? hname)) offset,
      ?_⟩
    simp [word, hnone]

theorem otherPiece_recut {c : Char} {rest : List Char} {piece : Piece}
    {taken tail rest' : List Char} (hrest : cur.rest = c :: rest)
    (h : cur.otherPiece c rest = (piece, next))
    (hreads : Reads cur taken next) (hlike : Alike next.rest rest') (offset : Nat)
    (hwhole : Alike cur.rest (taken ++ rest')) (hurl : cur.url? = none)
    (hurl' : (mk offset (taken ++ rest')).url? = none) (htail : taken ++ rest' = c :: tail) :
    (mk offset (taken ++ rest')).otherPiece c tail = (piece, ⟨offset + size taken, rest'⟩) := by
  unfold otherPiece at h ⊢
  rw [hurl] at h
  rw [hurl']
  dsimp only at h ⊢
  split at h
  · rename_i hnumeric
    cases h
    rw [numeric?_recut hnumeric hreads hlike]
  · rename_i hnumeric
    rw [numeric?_eq_none_iff.mpr
      (numeral?_none_alike (numeric?_eq_none_iff.mp hnumeric) hwhole offset)]
    dsimp only
    split at h
    · rename_i hname
      obtain ⟨after, hname', hword'⟩ := word_recut hname h hreads hlike offset
      rw [hname']
      exact hword'
    · rename_i hname
      cases h
      rw [identifier?_eq_none_iff] at hname
      have hname' : (mk offset (taken ++ rest')).identifier? = none :=
        identifier?_eq_none_iff.mpr (hwhole.beginsIdentifier hname)
      have hone : Reads cur [c] (cur.pass [c] rest) := reads_pass hrest
      obtain rfl := hreads.unique hone
      obtain ⟨-, rfl⟩ := List.cons_eq_cons.mp htail
      rw [hname']
      rfl

/-- A piece is read in front of any text that begins alike. What begins with `url(` has to fail as
an address in both texts. -/
theorem piece?_recut {piece : Piece} {taken rest' : List Char}
    (h : cur.piece? = .ok (some (piece, next))) (hreads : Reads cur taken next)
    (hlike : Alike next.rest rest') (offset : Nat) (hwhole : Alike cur.rest (taken ++ rest'))
    (hurl : cur.url? = none) (hurl' : (mk offset (taken ++ rest')).url? = none) :
    (mk offset (taken ++ rest')).piece? = .ok (some (piece, ⟨offset + size taken, rest'⟩)) := by
  have hne : taken ≠ [] := by
    obtain ⟨taken', hreads', hne⟩ := reads_piece? h
    rwa [hreads.unique hreads']
  unfold piece? fail at h
  split at h
  · cases h
  · rename_i c rest hrest
    obtain ⟨tail, rfl⟩ : ∃ tail, taken = c :: tail := by
      obtain ⟨d, tail, rfl⟩ := List.exists_cons_of_ne_nil hne
      have := hreads.rest_eq
      rw [hrest, List.cons_append, List.cons.injEq] at this
      exact ⟨tail, by rw [this.1]⟩
    have hone : Reads cur [c] (cur.pass [c] rest) := reads_pass hrest
    unfold piece?
    simp only [List.cons_append]
    split at h
    · rename_i hquote
      split at h <;> cases h
      rename_i hquoted
      rw [if_pos hquote]
      have := quoted?_recut hquoted hreads offset rest'
      rw [List.cons_append] at this
      rw [this]
    · rename_i hquote
      rw [if_neg hquote]
      split at h
      · cases h
        obtain rfl := (List.cons_eq_cons.mp (hreads.unique hone)).2
        rfl
      · cases h
        obtain rfl := (List.cons_eq_cons.mp (hreads.unique hone)).2
        rfl
      · cases h
        obtain rfl := (List.cons_eq_cons.mp (hreads.unique hone)).2
        rfl
      · cases h
        have hname : Reads (cur.pass ['#'] rest) (spanName rest).1 (cur.pass ['#'] rest).name.2 :=
          reads_name _
        obtain rfl := (List.cons_eq_cons.mp (hreads.unique (hone.trans hname))).2
        have hspan : spanName ((spanName rest).1 ++ rest') = ((spanName rest).1, rest') :=
          spanName_append_of rfl (hlike.spanName (spanName_after rfl))
        simp only [name, pass]
        simp [hspan, Nat.add_assoc]
      · rename_i hcomma hslash hparen hhash
        rcases hother : cur.otherPiece c rest with ⟨piece', next'⟩
        rw [hother] at h
        cases h
        have htail : c :: tail ++ rest' = c :: (tail ++ rest') := rfl
        have hotherPiece := otherPiece_recut hrest hother hreads hlike offset
          hwhole hurl hurl' htail
        rw [List.cons_append] at hotherPiece
        rw [hotherPiece]

/-! ### Words and numbers -/

theorem isAlpha_eq_true_iff {c : Char} :
    c.isAlpha = true ↔ 'A' ≤ c ∧ c ≤ 'Z' ∨ 'a' ≤ c ∧ c ≤ 'z' := by
  have halpha : c.isAlpha =
      (decide ('A' ≤ c ∧ c ≤ 'Z') || (decide ('a' ≤ c) && decide (c ≤ 'z'))) := rfl
  simp only [halpha, Bool.or_eq_true, Bool.and_eq_true, decide_eq_true_eq]

theorem isDigit_of_isNameStart {c : Char} (h : isNameStart c = true) : c.isDigit = false := by
  simp only [isNameStart, Bool.or_eq_true, isAlpha_eq_true_iff, decide_eq_true_eq, beq_iff_eq] at h
  rw [Bool.eq_false_iff, Char.isDigit, Ne, Bool.and_eq_true, decide_eq_true_eq, decide_eq_true_eq]
  rintro ⟨hlow, hhigh⟩
  have hcode : c.toNat = c.val.toNat := rfl
  simp only [Char.le_def, UInt32.le_iff_toNat_le, ge_iff_le] at h hlow hhigh
  rcases h with (h | rfl) | h
  · simp at h hlow hhigh; omega
  · simp at hhigh
  · simp at h hlow hhigh; omega

/-- No number begins where a name does. -/
theorem numberless_of_beginsName {text : List Char} (h : beginsName text = true) :
    NoDigit text ∧ (spanFraction text).1 = [] := by
  cases text with
  | nil => cases h
  | cons c text =>
    have hc : c.isDigit = false ∧ c ≠ '.' := by
      by_cases hescape : c = '\\'
      · subst hescape
        decide
      · rw [beginsName_cons hescape] at h
        exact ⟨isDigit_of_isNameStart h, by rintro rfl; cases h⟩
    refine ⟨noDigit_cons.mpr hc.1, spanFraction_eq_nil_iff.mpr fun rest heq => ?_⟩
    exact absurd (List.cons_eq_cons.mp heq).1 hc.2

theorem beginsIdentifier_of_identifier? {name : List Char}
    (h : cur.identifier? = some (name, next)) : beginsIdentifier cur.rest = true := by
  by_contra hbegins
  rw [identifier?, if_neg hbegins] at h
  cases h

/-- No number begins where an identifier does. -/
theorem numeric?_none_of_identifier? {name : List Char} (h : cur.identifier? = some (name, next)) :
    cur.numeric? = none := by
  have hbegins := beginsIdentifier_of_identifier? h
  rw [numeric?_eq_none_iff, numeral?_eq_none_iff]
  generalize cur.rest = text at hbegins
  cases text with
  | nil => cases hbegins
  | cons c rest =>
    rw [spanSign_snd]
    by_cases hhyphen : c = '-'
    · subst hhyphen
      rw [if_pos (.inr rfl)]
      rw [beginsIdentifier_hyphen, Bool.or_eq_true, beq_iff_eq] at hbegins
      rcases hbegins with hhead | hname
      · obtain ⟨rest, rfl⟩ := List.head?_eq_some_iff.mp hhead
        exact ⟨noDigit_cons.mpr rfl, rfl⟩
      · exact numberless_of_beginsName hname
    · rw [beginsIdentifier_cons hhyphen] at hbegins
      have hplus : c ≠ '+' := by
        rintro rfl
        cases hbegins
      rw [if_neg (not_or.mpr ⟨hplus, hhyphen⟩)]
      exact numberless_of_beginsName hbegins

/-! ### Words that look like an address -/

theorem eq_of_toLower_u {c : Char} (h : c.toLower = 'u') : c = 'u' ∨ c = 'U' := by
  unfold Char.toLower at h
  split at h
  · right
    have hval := congrArg Char.val h
    apply Char.ext
    grind
  · exact .inl h

theorem isNameStart_of_toLower {c : Char} (h : c.toLower.isAlpha = true) :
    isNameStart c = true := by
  have halpha : c.isAlpha = true := by
    unfold Char.toLower at h
    split at h
    · rename_i hupper
      have hupper : c.isUpper = true := decide_eq_true hupper
      have halpha : c.isAlpha = (c.isUpper || c.isLower) := rfl
      rw [halpha, hupper, Bool.true_or]
    · exact h
  simp [isNameStart, halpha]

theorem eq_parenthesis_of_toLower {c : Char} (h : c.toLower = '(') : c = '(' := by
  unfold Char.toLower at h
  split at h
  · have hval := congrArg Char.val h
    grind
  · exact h

/-- What begins with `url(` is an identifier in front of a parenthesis. -/
theorem identifier?_of_word? {inside : Cursor} (h : cur.word? ['u', 'r', 'l', '('] = some inside) :
    ∃ name named, cur.identifier? = some (name, named) ∧ named.char? '(' = some inside := by
  obtain ⟨taken, hreads, hlength, hlower⟩ := reads_word? h
  obtain ⟨a, b, c, d, rfl⟩ : ∃ a b c d, taken = [a, b, c, d] := by
    have := congrArg List.length hlower
    rw [List.length_map] at this
    match taken, this with
    | [a, b, c, d], _ => exact ⟨a, b, c, d, rfl⟩
  simp only [List.map_cons, List.map_nil, List.cons.injEq, and_true] at hlower
  obtain ⟨ha, hb, hc, hd⟩ := hlower
  obtain rfl := eq_parenthesis_of_toLower hd
  have hrest : cur.rest = a :: b :: c :: '(' :: inside.rest := hreads.rest_eq
  have hstart : isNameStart a = true := isNameStart_of_toLower (by rw [ha]; decide)
  have hname : spanName cur.rest = ([a, b, c], '(' :: inside.rest) := by
    have hb' : isNameStart b = true := isNameStart_of_toLower (by rw [hb]; decide)
    have hc' : isNameStart c = true := isNameStart_of_toLower (by rw [hc]; decide)
    rw [hrest, spanName_cons (by simp [isNameChar, hstart]),
      spanName_cons (by simp [isNameChar, hb']), spanName_cons (by simp [isNameChar, hc'])]
    rfl
  have hbegins : beginsIdentifier cur.rest = true := by
    rw [hrest]
    rcases eq_of_toLower_u ha with rfl | rfl <;> rfl
  have hidentifier : cur.identifier? =
      some ([a, b, c], cur.pass [a, b, c] ('(' :: inside.rest)) := by
    rw [identifier?, if_pos hbegins, name, hname]
  have hinside : inside = ⟨cur.offset + size [a, b, c, '('], inside.rest⟩ := by
    rw [← hreads.offset_eq]
  refine ⟨_, _, hidentifier, ?_⟩
  rw [char?_of_cons rfl, hinside]
  simp [pass, Nat.add_assoc]

theorem head_of_beginsIdentifier {c : Char} {rest : List Char}
    (h : beginsIdentifier (c :: rest) = true) : c = '-' ∨ c = '\\' ∨ isNameStart c = true := by
  by_cases hhyphen : c = '-'
  · exact .inl hhyphen
  · by_cases hescape : c = '\\'
    · exact .inr (.inl hescape)
    · rw [beginsIdentifier_cons hhyphen, beginsName_cons hescape] at h
      exact .inr (.inr h)

/-- An identifier that is no address is a word. -/
theorem piece?_eq_word {name : List Char} (h : cur.identifier? = some (name, next))
    (hurl : cur.url? = none) : cur.piece? = .ok (some (next.word name)) := by
  have hother (c : Char) (rest : List Char) : cur.otherPiece c rest = next.word name := by
    rw [otherPiece, hurl, numeric?_none_of_identifier? h, h]
  have hbegins := beginsIdentifier_of_identifier? h
  unfold piece?
  split
  · next hrest =>
    rw [hrest] at hbegins
    cases hbegins
  · next c rest hrest =>
    rw [hrest] at hbegins
    have hc := head_of_beginsIdentifier hbegins
    have hquote : isQuote c = false := by
      rw [Bool.eq_false_iff]
      intro hquote
      simp only [isQuote, Bool.or_eq_true, beq_iff_eq] at hquote
      rcases hquote with rfl | rfl <;> simp [isNameStart] at hc
    rw [if_neg (by simp [hquote])]
    split
    · rcases hc with hc | hc | hc <;> cases hc
    · rcases hc with hc | hc | hc <;> cases hc
    · rcases hc with hc | hc | hc <;> cases hc
    · rcases hc with hc | hc | hc <;> cases hc
    · rw [hother]

/-- What begins with `url(` and is no address is the opening of a function. -/
theorem piece?_of_word? {inside : Cursor} (h : cur.word? ['u', 'r', 'l', '('] = some inside)
    (hurl : cur.url? = none) :
    ∃ name, cur.piece? = .ok (some (.opening name, inside)) := by
  obtain ⟨name, named, hname, hparen⟩ := identifier?_of_word? h
  refine ⟨Text.lower (String.ofList (unescape name)), ?_⟩
  rw [piece?_eq_word hname hurl, word, hparen]

/-- Characters of names are an identifier if the first one may begin a name. -/
theorem identifier?_of_all {c : Char} {word rest : List Char} (hstart : isNameStart c = true)
    (hall : ∀ d ∈ word, isNameChar d = true) (hrest : (spanName rest).1 = []) (offset : Nat) :
    (mk offset (c :: word ++ rest)).identifier? =
      some (c :: word, ⟨offset + size (c :: word), rest⟩) := by
  have hbegins : beginsIdentifier (c :: word ++ rest) = true := by
    have hhyphen : c ≠ '-' := by
      rintro rfl
      cases hstart
    have hescape : c ≠ '\\' := by
      rintro rfl
      cases hstart
    rw [List.cons_append, beginsIdentifier_cons hhyphen, beginsName_cons hescape, hstart]
  have hword : ∀ d ∈ c :: word, isNameChar d = true := by
    rw [List.forall_mem_cons]
    exact ⟨by simp [isNameChar, hstart], hall⟩
  rw [identifier?, if_pos hbegins, name, spanName_of_all hword hrest]
  rfl

/-- An identifier that no parenthesis follows is a token. -/
theorem piece?_of_identifier? {name : List Char} (h : cur.identifier? = some (name, next))
    (hparen : next.rest.head? ≠ some '(') :
    cur.piece? = .ok (some (.token (.ident (String.ofList (unescape name))), next)) := by
  have hurl : cur.url? = none := by
    rw [url?]
    cases hword : cur.word? ['u', 'r', 'l', '('] with
    | none => rfl
    | some inside =>
      obtain ⟨name', named, hname, hopen⟩ := identifier?_of_word? hword
      rw [h] at hname
      cases hname
      rw [char?_eq_none_iff.mpr hparen] at hopen
      cases hopen
  rw [piece?_eq_word h hurl, word, char?_eq_none_iff.mpr hparen]

end Cursor

/-! ### Pieces are made of whole lexemes -/

theorem whole_of_spanName (text : List Char) : Whole (spanName text).1 := by
  fun_induction spanName text with
  | case1 c rest tail last htail ih => exact (Whole.of_escape c).append (by rwa [htail] at ih)
  | case2 c rest hescape hname tail last htail ih =>
    refine .cons ?_ ?_ ?_ (by rwa [htail] at ih)
    · rintro rfl; cases hname
    · rintro rfl; cases hname
    · rw [Bool.eq_false_iff]
      intro hquote
      simp only [isQuote, Bool.or_eq_true, beq_iff_eq] at hquote
      rcases hquote with rfl | rfl <;> cases hname
  | case3 => exact .nil
  | case4 => exact .nil

namespace Cursor

open Numeral

variable {cur next : Cursor}

theorem whole_of_identifier? {name : List Char} (h : cur.identifier? = some (name, next)) :
    Whole name := by
  unfold identifier? at h
  split at h
  · cases h
    exact whole_of_spanName cur.rest
  · cases h

theorem whole_of_isDigit {text : List Char} (h : ∀ c ∈ text, c.isDigit = true) : Whole text := by
  refine .of_forall fun c hc => ?_
  have hdigit := h c hc
  refine ⟨?_, ?_, ?_⟩
  · rintro rfl; cases hdigit
  · rintro rfl; cases hdigit
  · rw [Bool.eq_false_iff]
    intro hquote
    simp only [isQuote, Bool.or_eq_true, beq_iff_eq] at hquote
    rcases hquote with rfl | rfl <;> cases hdigit

theorem whole_of_spanSign (text : List Char) : Whole (spanSign text).1 := by
  unfold spanSign
  split
  · exact .of_plain (by decide) (by decide) (by decide)
  · exact .of_plain (by decide) (by decide) (by decide)
  · exact .nil

theorem whole_of_spanDigits (text : List Char) : Whole (spanDigits text).1 :=
  whole_of_isDigit fun _ hc => isDigit_of_spanDigits rfl hc

theorem whole_of_spanFraction (text : List Char) : Whole (spanFraction text).1 := by
  unfold spanFraction
  split
  · rename_i rest
    split
    · exact .nil
    · rename_i hspan
      have := whole_of_spanDigits rest
      rw [hspan] at this
      exact .cons (by decide) (by decide) (by decide) this
  · exact .nil

theorem whole_of_spanExponent (text : List Char) : Whole (spanExponent text).1 := by
  unfold spanExponent
  split
  · rename_i c rest
    split
    · rename_i hmark
      rw [Bool.or_eq_true, beq_iff_eq, beq_iff_eq] at hmark
      dsimp only
      split
      · exact .nil
      · rename_i hspan
        have hdigits := whole_of_spanDigits (spanSign rest).2
        rw [hspan] at hdigits
        rcases hmark with rfl | rfl <;>
          exact .cons (by decide) (by decide) (by decide) ((whole_of_spanSign rest).append hdigits)
    · exact .nil
  · exact .nil

theorem whole_of_numeral? {number : List Char} (h : cur.numeral? = some (number, next)) :
    Whole number := by
  unfold numeral? at h
  dsimp only at h
  split at h
  · cases h
  · cases h
    exact (((whole_of_spanSign _).append (whole_of_spanDigits _)).append
      (whole_of_spanFraction _)).append (whole_of_spanExponent _)

theorem whole_of_numeric? {token : Token} {taken : List Char}
    (h : cur.numeric? = some (token, next)) (hreads : Reads cur taken next) : Whole taken := by
  simp only [numeric?, bind, Option.bind_eq_some_iff, Prod.exists] at h
  obtain ⟨digits, after, hnumeral, h⟩ := h
  have hdigits := (reads_numeral? hnumeral).1
  split at h
  · rename_i last hpercent
    cases h
    obtain rfl := hreads.unique (hdigits.trans (reads_char? hpercent))
    exact (whole_of_numeral? hnumeral).append (.of_plain (by decide) (by decide) (by decide))
  · split at h
    · rename_i unit last hunit
      cases h
      obtain rfl := hreads.unique (hdigits.trans (reads_identifier? hunit).1)
      exact (whole_of_numeral? hnumeral).append (whole_of_identifier? hunit)
    · cases h
      obtain rfl := hreads.unique hdigits
      exact whole_of_numeral? hnumeral

/-! ### What a piece can be -/

/-- A piece stands at a cursor, told by the reader that finds it. -/
inductive PieceAt (cur : Cursor) : Piece → Cursor → Prop
  | string {text : String} {next : Cursor} (h : cur.quoted? = some (text, next)) :
    PieceAt cur (.token (.string text)) next
  | comma {next : Cursor} (h : Reads cur [','] next) : PieceAt cur (.token .comma) next
  | slash {next : Cursor} (h : Reads cur ['/'] next) : PieceAt cur (.token .slash) next
  | closing {next : Cursor} (h : Reads cur [')'] next) : PieceAt cur .closing next
  | hash {named : Cursor} (h : Reads cur ['#'] named) :
    PieceAt cur (.token (.hash (String.ofList (unescape named.name.1)))) named.name.2
  | url {address : String} {next : Cursor} (h : cur.url? = some (.url address, next)) :
    PieceAt cur (.token (.url address)) next
  | percentage {digits : String} {next : Cursor}
    (h : cur.numeric? = some (.percentage digits, next)) :
    PieceAt cur (.token (.percentage digits)) next
  | dimension {digits unit : String} {next : Cursor}
    (h : cur.numeric? = some (.dimension digits unit, next)) :
    PieceAt cur (.token (.dimension digits unit)) next
  | number {digits : String} {next : Cursor} (h : cur.numeric? = some (.number digits, next)) :
    PieceAt cur (.token (.number digits)) next
  | opening {word : List Char} {named next : Cursor}
    (h : cur.identifier? = some (word, named)) (hparen : Reads named ['('] next) :
    PieceAt cur (.opening (Text.lower (String.ofList (unescape word)))) next
  | ident {word : List Char} {next : Cursor} (h : cur.identifier? = some (word, next)) :
    PieceAt cur (.token (.ident (String.ofList (unescape word)))) next
  | delim {c : Char} {next : Cursor} (h : Reads cur [c] next) (hname : cur.identifier? = none)
    (hquote : isQuote c = false) (hslash : c ≠ '/') : PieceAt cur (.token (.delim c)) next

theorem pieceAt_of_numeric? {token : Token} (h : cur.numeric? = some (token, next)) :
    PieceAt cur (.token token) next := by
  have hnumeric := h
  simp only [numeric?, bind, Option.bind_eq_some_iff, Prod.exists] at h
  obtain ⟨digits, after, -, h⟩ := h
  split at h
  · cases h
    exact .percentage hnumeric
  · split at h <;> cases h
    · exact .dimension hnumeric
    · exact .number hnumeric

theorem pieceAt_of_piece? {piece : Piece} (h : cur.piece? = .ok (some (piece, next))) :
    PieceAt cur piece next := by
  unfold piece? fail at h
  split at h
  · cases h
  · next c rest hrest =>
    have hone : Reads cur [c] (cur.pass [c] rest) := reads_pass hrest
    split at h
    · split at h <;> cases h
      exact .string ‹_›
    · next hquote =>
      split at h
      · cases h; exact .comma hone
      · cases h; exact .slash hone
      · cases h; exact .closing hone
      · cases h; exact .hash hone
      · next hcomma hslash hparen hhash =>
        rcases hother : cur.otherPiece c rest with ⟨piece', next'⟩
        rw [hother] at h
        cases h
        unfold otherPiece at hother
        split at hother
        · next hurl =>
          cases hother
          obtain ⟨⟨address, rfl⟩, -⟩ := eq_url_of_url? hurl
          exact .url hurl
        · split at hother
          · next hnumeric =>
            cases hother
            exact pieceAt_of_numeric? hnumeric
          · split at hother
            · next hname =>
              unfold word at hother
              dsimp only at hother
              split at hother <;> cases hother
              · exact .opening hname (reads_char? ‹_›)
              · exact .ident hname
            · next hname =>
              cases hother
              exact .delim hone hname (by simpa using hquote) hslash

/-- A piece is a sequence of lexemes whatever follows it, unless it is a slash or a backslash at the
end of the text. -/
theorem whole_of_piece? {piece : Piece} {taken : List Char}
    (h : cur.piece? = .ok (some (piece, next))) (hreads : Reads cur taken next)
    (hurl : cur.url? = none) :
    Whole taken ∨ (piece = .token .slash ∧ taken = ['/']) ∨
      (piece = .token (.delim '\\') ∧ taken = ['\\'] ∧ next.rest = []) := by
  have hparen : Whole ['('] := .of_plain (by decide) (by decide) (by decide)
  cases pieceAt_of_piece? h with
  | string hquoted =>
    obtain ⟨quoted, -, hlexeme⟩ := quoted?_eq_some_iff.mp hquoted
    obtain ⟨hbefore, hquotedReads⟩ := lexeme?_eq_ok_some_iff.mp hlexeme
    obtain rfl := hreads.unique hquotedReads
    exact .inl (.of_quoted hbefore)
  | comma hone | closing hone =>
    obtain rfl := hreads.unique hone
    exact .inl (.of_plain (by decide) (by decide) (by decide))
  | slash hone =>
    obtain rfl := hreads.unique hone
    exact .inr (.inl ⟨rfl, rfl⟩)
  | hash hone =>
    obtain rfl := hreads.unique (hone.trans (reads_name _))
    exact .inl (.cons (by decide) (by decide) (by decide) (whole_of_spanName _))
  | url hsome =>
    rw [hurl] at hsome
    cases hsome
  | percentage hnumeric | dimension hnumeric | number hnumeric =>
    exact .inl (whole_of_numeric? hnumeric hreads)
  | opening hname hopening =>
    obtain rfl := hreads.unique ((reads_identifier? hname).1.trans hopening)
    exact .inl ((whole_of_identifier? hname).append hparen)
  | ident hname =>
    obtain rfl := hreads.unique (reads_identifier? hname).1
    exact .inl (whole_of_identifier? hname)
  | @delim c _ hone hname hquote hslash =>
    obtain rfl := hreads.unique hone
    by_cases hescape : c = '\\'
    · subst hescape
      refine .inr (.inr ⟨rfl, rfl, ?_⟩)
      rw [identifier?_eq_none_iff, hone.rest_eq] at hname
      cases hrest : next.rest with
      | nil => rfl
      | cons d rest =>
        rw [hrest] at hname
        cases hname
    · exact .inl (.of_plain hescape hslash hquote)

/-- A text begins like another one behind a piece, unless the piece is a lone backslash, which ends
the text. -/
theorem firm_of_piece? {piece : Piece} {taken : List Char}
    (h : cur.piece? = .ok (some (piece, next))) (hreads : Reads cur taken next) :
    Firm taken ∨ piece = .token (.delim '\\') ∧ next.rest = [] := by
  obtain ⟨taken', hreads', hne⟩ := reads_piece? h
  obtain rfl := hreads.unique hreads'
  cases hurl : cur.url? with
  | some found =>
    rw [piece?_of_url? hurl] at h
    cases h
    exact .inl (firm_of_url? hurl hreads)
  | none =>
    rcases whole_of_piece? h hreads hurl with hwhole | ⟨-, rfl⟩ | ⟨hpiece, -, hend⟩
    · exact .inl (hwhole.firm hne)
    · exact .inl ⟨by simp, by simp, by simp⟩
    · exact .inr ⟨hpiece, hend⟩

end Cursor

end WebFonts.Css
