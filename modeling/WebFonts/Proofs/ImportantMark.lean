import WebFonts.Proofs.Extents

/-!
# The mark of an important declaration

`cutImportant` looks for the mark from the end of a value: the last nine characters that are no
trivia, and in front of them and more trivia an exclamation mark. `cutImportant_spell_iff` says what
this means for the lexemes of the value. The letters of the keyword stand for themselves, and so
does the exclamation mark, unless a backslash protects it: then the cut goes through the escape and
leaves the backslash behind.
-/

namespace WebFonts.Css

open Text (size isBlank)

/-! ### Plain characters at the end of a text -/

/-- Only a backslash can keep a plain character from being the last lexeme of a text. -/
theorem Lexeme.Before.last_eq {last : Lexeme} {rest : List Char} {c : Char}
    (h : last.Before rest) (hlast : last.text.getLast? = some c) (hc : Plain [c]) :
    last = .plain c ∨ last = .escape ['\\', c] := by
  obtain ⟨hescape, hslash, hquote⟩ := hc c (List.mem_singleton_self c)
  cases h with
  | quoted hisQuote hclose =>
    rw [Lexeme.text, List.getLast?_cons, getLast?_of_closeQuote? hclose, Option.getD_some,
      Option.some.injEq] at hlast
    rw [← hlast, hisQuote] at hquote
    cases hquote
  | comment hclose =>
    rw [Lexeme.text, List.getLast?_cons, List.getLast?_cons, getLast?_of_closeComment? hclose]
      at hlast
    cases hlast
    exact absurd rfl hslash
  | escape d =>
    cases hlast
    exact .inr rfl
  | backslash =>
    cases hlast
    exact absurd rfl hescape
  | plain =>
    cases hlast
    exact .inl rfl

/-- Plain characters at the end of a text are lexemes of their own, unless a backslash in front of
them protects the first of them. -/
theorem Lexes.plain_suffix {lexemes : List Lexeme} {front word : List Char}
    (h : Lexes lexemes []) (hword : Plain word) (hspell : spell lexemes = front ++ word) :
    (∃ others, lexemes = others ++ word.map .plain ∧ spell others = front) ∨
      ∃ others, front = spell (others ++ [.escape ['\\']]) ∧
        Lexes (others ++ [.escape ['\\']]) [] := by
  induction word using List.reverseRecOn generalizing lexemes with
  | nil => exact .inl ⟨lexemes, by simp, by simpa using hspell⟩
  | append_singleton word c ih =>
    have hc : Plain [c] := fun d hd => hword d (List.mem_append_right word hd)
    have hne : lexemes ≠ [] := by
      rintro rfl
      simp at hspell
    obtain ⟨others, last, rfl⟩ := (List.eq_nil_or_concat lexemes).resolve_left hne
    rw [List.concat_eq_append] at h hspell ⊢
    obtain ⟨hothers, hbefore, -⟩ := lexes_append.mp h
    have hlast : last.text.getLast? = some c := by
      have hgetLast := congrArg List.getLast? hspell
      rw [← List.append_assoc, List.getLast?_concat, spell_append, spell_cons, spell_nil,
        List.append_nil, List.getLast?_append_of_ne_nil _ hbefore.text_ne_nil] at hgetLast
      exact hgetLast
    rcases hbefore.last_eq hlast hc with rfl | rfl
    · have hinit : spell others = front ++ word := by
        rw [spell_append, ← List.append_assoc] at hspell
        exact (List.append_inj' hspell rfl).1
      have hword' : Plain word := fun d hd => hword d (List.mem_append_left [c] hd)
      rcases ih hothers.atEnd hword' hinit with ⟨begun, rfl, hbegun⟩ | hlone
      · exact .inl ⟨begun, by simp, hbegun⟩
      · exact .inr hlone
    · have hinit : spell (others ++ [.escape ['\\']]) = front ++ word := by
        have htext : spell (others ++ [.escape ['\\', c]]) =
            spell (others ++ [.escape ['\\']]) ++ [c] := by
          simp [Lexeme.text]
        rw [htext, ← List.append_assoc] at hspell
        exact (List.append_inj' hspell rfl).1
      cases word using List.reverseRecOn with
      | nil =>
        rw [List.append_nil] at hinit
        refine .inr ⟨others, hinit.symm, lexes_append.mpr ⟨hothers.congr rfl, .backslash, trivial⟩⟩
      | append_singleton word d =>
        have hlastEq := congrArg List.getLast? hinit
        rw [← List.append_assoc, List.getLast?_concat] at hlastEq
        have hd : d = '\\' := by simpa [Lexeme.text] using hlastEq.symm
        exact absurd hd (hword d (by simp)).1

/-! ### The mark -/

/-- Every list is what is kept of it and some elements that are dropped. -/
theorem exists_rdropWhile_append {α : Type} (p : α → Bool) (as : List α) :
    ∃ dropped, as.rdropWhile p ++ dropped = as ∧ ∀ a ∈ dropped, p a = true := by
  induction as using List.reverseRecOn with
  | nil => exact ⟨[], rfl, nofun⟩
  | append_singleton as a ih =>
    cases ha : p a with
    | true =>
      obtain ⟨dropped, happ, hall⟩ := ih
      rw [List.rdropWhile_concat_pos _ _ _ ha]
      refine ⟨dropped ++ [a], by rw [← List.append_assoc, happ], ?_⟩
      simpa [or_imp, forall_and, ha] using hall
    | false =>
      rw [List.rdropWhile_concat_neg _ _ _ (by simp [ha])]
      exact ⟨[], List.append_nil _, nofun⟩

/-- Lexemes end in a mark: an exclamation mark, by itself or behind a backslash, and the keyword in
any case, with trivia between and behind. In front of the mark stands a text, which the backslash
belongs to. -/
inductive Marked : List Lexeme → List Char → Prop
  | plain (front gap behind : List Lexeme) (word : List Char)
      (hgap : ∀ lexeme ∈ gap, lexeme.isTrivia = true)
      (hbehind : ∀ lexeme ∈ behind, lexeme.isTrivia = true)
      (hword : Text.sameIgnoringCase (String.ofList word) "important" = true) :
      Marked (front ++ .plain '!' :: (gap ++ word.map .plain ++ behind)) (spell front)
  | escaped (front gap behind : List Lexeme) (word : List Char)
      (hgap : ∀ lexeme ∈ gap, lexeme.isTrivia = true)
      (hbehind : ∀ lexeme ∈ behind, lexeme.isTrivia = true)
      (hword : Text.sameIgnoringCase (String.ofList word) "important" = true) :
      Marked (front ++ .escape ['\\', '!'] :: (gap ++ word.map .plain ++ behind))
        (spell front ++ ['\\'])

theorem isBlank_of_toLower {c : Char} (h : c.toLower.isLower = true) : isBlank c = false := by
  have hcode : 65 ≤ c.toNat ∧ c.toNat ≤ 122 := by
    have hval : c.val.toNat = c.toNat := rfl
    unfold Char.toLower at h
    split at h
    · next hupper =>
      simp only [ge_iff_le, UInt32.le_iff_toNat_le] at hupper
      simp at hupper
      omega
    · have hlower : c.isLower = (decide ('a' ≤ c) && decide (c ≤ 'z')) := rfl
      simp only [hlower, Char.le_def, UInt32.le_iff_toNat_le, Bool.and_eq_true,
        decide_eq_true_eq] at h
      simp at h
      omega
  simp only [isBlank, Bool.or_eq_false_iff, Bool.and_eq_false_iff, decide_eq_false_iff_not,
    beq_eq_false_iff_ne]
  omega

/-- The letters of the keyword, in any case. -/
theorem toLower_of_important {word : List Char}
    (h : Text.sameIgnoringCase (String.ofList word) "important" = true) :
    word.map Char.toLower = "important".toList := by
  have hlower : Text.lower "important" = "important" := by decide +kernel
  rwa [Text.sameIgnoringCase_iff, hlower, ← String.toList_inj, Text.lower, String.toList_map,
    String.toList_ofList] at h

/-- The keyword has nine plain letters. -/
theorem plain_of_important {word : List Char}
    (h : Text.sameIgnoringCase (String.ofList word) "important" = true) :
    word.length = "important".length ∧ Plain word ∧ ∀ c ∈ word, isBlank c = false := by
  have hletters := toLower_of_important h
  have hletter : ∀ c ∈ word, c.toLower ∈ "important".toList := fun c hc =>
    hletters ▸ List.mem_map_of_mem hc
  refine ⟨?_, fun c hc => ⟨?_, ?_, ?_⟩, fun c hc => isBlank_of_toLower ?_⟩
  · rw [← List.length_map, hletters]
    rfl
  · rintro rfl
    exact absurd (hletter _ hc) (by decide)
  · rintro rfl
    exact absurd (hletter _ hc) (by decide)
  · rw [Bool.eq_false_iff]
    intro hquote
    simp only [isQuote, Bool.or_eq_true, beq_iff_eq] at hquote
    rcases hquote with rfl | rfl <;> exact absurd (hletter _ hc) (by decide)
  · have hall : ∀ d ∈ "important".toList, d.isLower = true := List.all_eq_true.mp (by decide)
    exact hall _ (hletter c hc)

theorem dropTrailingTrivia_concat {front : List Lexeme} {last : Lexeme}
    (h : Lexes (front ++ [last]) []) (hlast : last.isTrivia = false) :
    dropTrailingTrivia (spell (front ++ [last])) = spell (front ++ [last]) := by
  rw [dropTrailingTrivia_spell h, List.rdropWhile_concat_neg _ _ _ (by simp [hlast])]

/-- Trivia behind a lexeme that means something are dropped. -/
theorem dropTrailingTrivia_append_trivia {front trivia : List Lexeme} {last : Lexeme}
    (h : Lexes (front ++ last :: trivia) []) (hlast : last.isTrivia = false)
    (htrivia : ∀ lexeme ∈ trivia, lexeme.isTrivia = true) :
    dropTrailingTrivia (spell (front ++ last :: trivia)) = spell (front ++ [last]) := by
  have hnil : trivia.rdropWhile Lexeme.isTrivia = [] := List.rdropWhile_eq_nil_iff.mpr htrivia
  have hback : (last :: trivia).rdropWhile Lexeme.isTrivia = [last] := by
    rw [rdropWhile_cons, hnil, if_neg (by simp [hlast])]
  rw [dropTrailingTrivia_spell h, rdropWhile_append_of_ne_nil front (by simp [hback]), hback]

theorem spell_map_plain (word : List Char) : spell (word.map .plain) = word := by
  induction word with
  | nil => rfl
  | cons c word ih => rw [List.map_cons, spell_cons, ih, Lexeme.text, List.singleton_append]

theorem lexes_map_plain {word : List Char} (h : Plain word) (rest : List Char) :
    Lexes (word.map .plain) rest := by
  induction word with
  | nil => trivial
  | cons c word ih =>
    obtain ⟨hescape, hslash, hquote⟩ := h c (List.mem_cons_self ..)
    exact ⟨.plain hescape hquote (absurd · hslash), ih fun d hd => h d (List.mem_cons_of_mem c hd)⟩

/-- A mark is cut off where the keyword ends a text, but for trivia, and an exclamation mark ends
what stands in front of the keyword. -/
theorem cutImportant_eq_true_iff {value kept : List Char} :
    cutImportant value = (kept, true) ↔ ∃ front word,
      dropTrailingTrivia value = front ++ word ∧
        Text.sameIgnoringCase (String.ofList word) "important" = true ∧
        dropTrailingTrivia front = kept ++ ['!'] := by
  constructor
  · intro h
    unfold cutImportant at h
    simp only [List.splitAt_eq] at h
    split at h
    · rename_i hmark
      rw [Bool.and_eq_true, beq_iff_eq] at hmark
      obtain ⟨hword, hlast⟩ := hmark
      obtain ⟨marked, hmarked⟩ := List.getLast?_eq_some_iff.mp hlast
      rw [hmarked, List.dropLast_concat] at h
      cases h
      exact ⟨_, _, (List.take_append_drop _ _).symm, hword, hmarked⟩
    · exact absurd (Prod.mk.inj h).2 (by simp)
  · rintro ⟨front, word, hcontent, hword, hmarked⟩
    obtain ⟨hlength, -, -⟩ := plain_of_important hword
    have hcut : (front ++ word).splitAt ((front ++ word).length - "important".length) =
        (front, word) := by
      rw [splitAt_sub_append (by rw [hlength]), hlength, Nat.sub_self, List.take_zero,
        List.append_nil, List.drop_zero]
    simp only [cutImportant, hcontent, hcut, hmarked, hword, List.getLast?_concat,
      List.dropLast_concat, beq_self_eq_true, Bool.and_self, if_true]

/-- A keyword behind a lexeme that means something is cut off with it if this lexeme ends in an
exclamation mark. -/
theorem cutImportant_of_keyword {front gap behind : List Lexeme} {mark : Lexeme}
    {text word : List Char}
    (h : Lexes (front ++ mark :: (gap ++ word.map .plain ++ behind)) [])
    (hmark : mark.isTrivia = false) (htext : mark.text = text ++ ['!'])
    (hgap : ∀ lexeme ∈ gap, lexeme.isTrivia = true)
    (hbehind : ∀ lexeme ∈ behind, lexeme.isTrivia = true)
    (hword : Text.sameIgnoringCase (String.ofList word) "important" = true) :
    cutImportant (spell (front ++ mark :: (gap ++ word.map .plain ++ behind))) =
      (spell front ++ text, true) := by
  obtain ⟨hlength, -, hblank⟩ := plain_of_important hword
  have hne : word ≠ [] := by
    rintro rfl
    exact absurd hlength (by decide)
  obtain ⟨begun, c, hconcat⟩ := (List.eq_nil_or_concat word).resolve_left hne
  rw [List.concat_eq_append] at hconcat
  -- the last letter is the last lexeme that means something
  have hsplit : front ++ mark :: (gap ++ word.map .plain ++ behind) =
      (front ++ mark :: (gap ++ begun.map .plain)) ++ .plain c :: behind := by
    simp [hconcat]
  have hkeyword : (front ++ mark :: (gap ++ begun.map .plain)) ++ [.plain c] =
      (front ++ mark :: gap) ++ word.map .plain := by
    simp [hconcat]
  have hcontent : dropTrailingTrivia
      (spell (front ++ mark :: (gap ++ word.map .plain ++ behind))) =
      spell (front ++ mark :: gap) ++ word := by
    rw [hsplit] at h ⊢
    rw [dropTrailingTrivia_append_trivia h (hblank c (by simp [hconcat])) hbehind, hkeyword,
      spell_append, spell_map_plain]
  have hlexes : Lexes (front ++ mark :: gap) [] := by
    have hassoc : front ++ mark :: (gap ++ word.map .plain ++ behind) =
        (front ++ mark :: gap) ++ (word.map .plain ++ behind) := by
      simp
    rw [hassoc] at h
    exact (lexes_append.mp h).1.atEnd
  have hmarked : spell (front ++ [mark]) = spell front ++ text ++ ['!'] := by
    simp [htext]
  refine cutImportant_eq_true_iff.mpr ⟨_, word, hcontent, hword, ?_⟩
  rw [dropTrailingTrivia_append_trivia hlexes hmark hgap, hmarked]

/-- Lexemes that end in an exclamation mark end in the mark by itself or behind a backslash. -/
theorem Lexes.exists_exclamation {lexemes : List Lexeme} (h : Lexes lexemes [])
    (hlast : (spell lexemes).getLast? = some '!') :
    ∃ front, lexemes = front ++ [.plain '!'] ∧ (spell lexemes).dropLast = spell front ∨
      lexemes = front ++ [.escape ['\\', '!']] ∧
        (spell lexemes).dropLast = spell front ++ ['\\'] := by
  have hmark : Plain ['!'] := by
    rintro c hc
    rw [List.mem_singleton.mp hc]
    decide
  have hne : lexemes ≠ [] := by
    rintro rfl
    cases hlast
  obtain ⟨front, last, rfl⟩ := (List.eq_nil_or_concat lexemes).resolve_left hne
  rw [List.concat_eq_append] at h hlast ⊢
  obtain ⟨-, hbefore, -⟩ := lexes_append.mp h
  rw [spell_append, spell_cons, spell_nil, List.append_nil,
    List.getLast?_append_of_ne_nil _ hbefore.text_ne_nil] at hlast
  rcases hbefore.last_eq hlast hmark with rfl | rfl
  · exact ⟨front, .inl ⟨rfl, by simp [Lexeme.text]⟩⟩
  · exact ⟨front, .inr ⟨rfl, by simp [Lexeme.text, List.dropLast_append_of_ne_nil]⟩⟩

/-- A mark is cut off exactly where lexemes end in one. -/
theorem cutImportant_spell_iff {lexemes : List Lexeme} {kept : List Char}
    (h : Lexes lexemes []) :
    cutImportant (spell lexemes) = (kept, true) ↔ Marked lexemes kept := by
  constructor
  · intro hcut
    obtain ⟨behind, hbehindEq, hbehind⟩ := exists_rdropWhile_append Lexeme.isTrivia lexemes
    obtain ⟨front, word, hspell, hword, hmarked⟩ := cutImportant_eq_true_iff.mp hcut
    rw [dropTrailingTrivia_spell h] at hspell
    have hmeaningful := h.rdropWhile
    generalize lexemes.rdropWhile Lexeme.isTrivia = meaningful at hbehindEq hspell hmeaningful
    obtain ⟨-, hplain, -⟩ := plain_of_important hword
    rcases hmeaningful.plain_suffix hplain hspell with
      ⟨others, rfl, rfl⟩ | ⟨others, rfl, hlone⟩
    · have hothers := (lexes_append.mp hmeaningful).1.atEnd
      obtain ⟨gap, hgapEq, hgap⟩ := exists_rdropWhile_append Lexeme.isTrivia others
      rw [dropTrailingTrivia_spell hothers] at hmarked
      have hbegun := hothers.rdropWhile
      generalize others.rdropWhile Lexeme.isTrivia = begun at hgapEq hmarked hbegun
      subst hgapEq hbehindEq
      have hlast : (spell begun).getLast? = some '!' := by rw [hmarked, List.getLast?_concat]
      have hdropped : (spell begun).dropLast = kept := by rw [hmarked, List.dropLast_concat]
      obtain ⟨front, ⟨rfl, hkept⟩ | ⟨rfl, hkept⟩⟩ := hbegun.exists_exclamation hlast
      · rw [← hdropped, hkept]
        simpa using Marked.plain front gap behind word hgap hbehind hword
      · rw [← hdropped, hkept]
        simpa using Marked.escaped front gap behind word hgap hbehind hword
    · rw [dropTrailingTrivia_concat hlone rfl] at hmarked
      have hlast := congrArg List.getLast? hmarked
      simp [Lexeme.text] at hlast
  · rintro (⟨front, gap, behind, word, hgap, hbehind, hword⟩ |
      ⟨front, gap, behind, word, hgap, hbehind, hword⟩)
    · have hcut := cutImportant_of_keyword h (by decide) (List.nil_append _).symm hgap hbehind hword
      rwa [List.append_nil] at hcut
    · exact cutImportant_of_keyword h rfl rfl hgap hbehind hword

/-- The texts in which the mark of lexemes stands. -/
theorem Marked.exists_keyword {lexemes : List Lexeme} {kept : List Char} (h : Marked lexemes kept)
    (hlexes : Lexes lexemes []) :
    ∃ gap behind word, spell lexemes = kept ++ '!' :: spell (gap ++ (word.map .plain ++ behind)) ∧
      Lexes (gap ++ (word.map .plain ++ behind)) [] ∧
      (∀ lexeme ∈ gap, lexeme.isTrivia = true) ∧ (∀ lexeme ∈ behind, lexeme.isTrivia = true) ∧
      Text.sameIgnoringCase (String.ofList word) "important" = true := by
  cases h with
  | plain front gap behind word hgap hbehind hword =>
    refine ⟨gap, behind, word, by simp [Lexeme.text], ?_, hgap, hbehind, hword⟩
    rw [← List.append_assoc]
    exact (lexes_append.mp hlexes).2.2
  | escaped front gap behind word hgap hbehind hword =>
    refine ⟨gap, behind, word, by simp [Lexeme.text], ?_, hgap, hbehind, hword⟩
    rw [← List.append_assoc]
    exact (lexes_append.mp hlexes).2.2

/-! ### Texts without a mark -/

/-- No exclamation mark stands outside the strings and comments of a text, which are lexemes in
front of every text. -/
def Unmarked (text : List Char) : Prop :=
  ∃ lexemes, spell lexemes = text ∧ (∀ rest, Lexes lexemes rest) ∧
    ∀ lexeme ∈ lexemes, lexeme ≠ .plain '!' ∧ lexeme ≠ .escape ['\\', '!']

namespace Unmarked

variable {front back text : List Char}

theorem nil : Unmarked [] :=
  ⟨[], rfl, fun _ => trivial, nofun⟩

theorem append (hfront : Unmarked front) (hback : Unmarked back) : Unmarked (front ++ back) := by
  obtain ⟨lexemes, rfl, hlexes, hunmarked⟩ := hfront
  obtain ⟨others, rfl, hothers, hunmarkedOthers⟩ := hback
  refine ⟨lexemes ++ others, spell_append .., fun rest => ?_, ?_⟩
  · exact lexes_append.mpr ⟨hlexes _, hothers rest⟩
  · exact List.forall_mem_append.mpr ⟨hunmarked, hunmarkedOthers⟩

theorem flatMap {α : Type} {text : α → List Char} (h : ∀ a, Unmarked (text a))
    (as : List α) : Unmarked (as.flatMap text) := by
  induction as with
  | nil => exact .nil
  | cons a as ih =>
    rw [List.flatMap_cons]
    exact (h a).append ih

theorem of_quoted (h : (Lexeme.quoted text).Before []) : Unmarked text := by
  refine ⟨[.quoted text], List.append_nil _, fun rest => ⟨?_, trivial⟩, by simp⟩
  cases h with
  | quoted hquote hclose => exact .quoted hquote hclose

theorem of_plain (h : Plain text) (hmark : '!' ∉ text) : Unmarked text := by
  refine ⟨text.map .plain, spell_map_plain text, lexes_map_plain h, ?_⟩
  rintro lexeme hmem
  obtain ⟨c, hc, rfl⟩ := List.mem_map.mp hmem
  refine ⟨?_, nofun⟩
  rintro ⟨⟩
  exact hmark hc

/-- Such a text is left as it is. -/
theorem cutImportant (h : Unmarked text) : Css.cutImportant text = (text, false) := by
  obtain ⟨lexemes, rfl, hlexes, hunmarked⟩ := h
  rcases hcut : Css.cutImportant (spell lexemes) with ⟨kept, important⟩
  cases important with
  | false => rw [cutImportant_of_not_important hcut]
  | true =>
    cases (cutImportant_spell_iff (hlexes [])).mp hcut with
    | plain => exact absurd rfl (hunmarked (.plain '!') (by simp)).1
    | escaped => exact absurd rfl (hunmarked (.escape ['\\', '!']) (by simp)).2

end Unmarked

end WebFonts.Css
