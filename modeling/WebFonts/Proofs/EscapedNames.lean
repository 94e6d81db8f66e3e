import WebFonts.Proofs.Values

/-!
# The end of an escape

A hexadecimal escape may be closed by one blank. `unescape` takes this blank as a part of the
escape, but a name ends in front of it. Where a name ends in such an escape and a blank follows, the
text that the name stands for is thus not a part of what the whole text stands for
(`unescape_name`), and a name in which every character is written as such an escape is read as one
identifier for each character (`HexEscape.ofText?_spelled`). `escape_ends_before_blank` says both.
-/

namespace WebFonts.Css

open Text (size isHexDigit isEscapeBlank hexNumber)

/-! ### The digits of an escape -/

theorem isNameChar_of_isHexDigit {c : Char} (h : isHexDigit c = true) : isNameChar c = true := by
  have hletter (hlow : 'a' ≤ c ∧ c ≤ 'z' ∨ 'A' ≤ c ∧ c ≤ 'Z') : isNameChar c = true := by
    simp [isNameChar, isNameStart, Cursor.isAlpha_eq_true_iff.mpr hlow.symm]
  simp only [isHexDigit, Bool.or_eq_true, Bool.and_eq_true, decide_eq_true_eq] at h
  rcases h with (hdigit | ⟨hlow, hhigh⟩) | ⟨hlow, hhigh⟩
  · simp [isNameChar, hdigit]
  · exact hletter (.inl ⟨hlow, Char.le_trans hhigh (by decide)⟩)
  · exact hletter (.inr ⟨hlow, Char.le_trans hhigh (by decide)⟩)

theorem ne_backslash_of_isHexDigit {c : Char} (h : isHexDigit c = true) : c ≠ '\\' := by
  rintro rfl
  cases h

theorem isEscapeBlank_of_isNameChar {c : Char} (h : isNameChar c = true) :
    isEscapeBlank c = false := by
  rw [Bool.eq_false_iff]
  intro hblank
  simp only [isEscapeBlank, Bool.or_eq_true, beq_iff_eq] at hblank
  rcases hblank with (((rfl | rfl) | rfl) | rfl) | rfl <;> cases h

theorem isHexDigit_of_mem_escapeDigits {text : List Char} {c : Char}
    (h : c ∈ escapeDigits text) : isHexDigit c = true :=
  List.mem_takeWhile_imp h

theorem length_escapeDigits_le (text : List Char) : (escapeDigits text).length ≤ 6 := by
  have hprefix := (List.takeWhile_prefix (l := text.take 6) isHexDigit).length_le
  rw [List.length_take] at hprefix
  rw [escapeDigits]
  omega

theorem exists_escapeDigits_append (text : List Char) :
    ∃ after, escapeDigits text ++ after = text :=
  (List.takeWhile_prefix _).trans (List.take_prefix 6 text)

theorem escapeDigits_eq_self {digits : List Char} (hlength : digits.length ≤ 6)
    (hhex : ∀ c ∈ digits, isHexDigit c = true) : escapeDigits digits = digits := by
  rw [escapeDigits, List.take_of_length_le hlength, List.takeWhile_eq_self_iff]
  exact hhex

/-- The digits of an escape end in front of a character that is no digit. -/
theorem escapeDigits_append {rest : List Char}
    (hrest : ∀ c, rest.head? = some c → isHexDigit c = false) (text : List Char) :
    escapeDigits (text ++ rest) = escapeDigits text := by
  have hnil (n : Nat) : (rest.take n).takeWhile isHexDigit = [] := by
    cases rest with
    | nil => simp
    | cons c rest =>
      cases n with
      | zero => rfl
      | succ n => simp [hrest c rfl]
  rw [escapeDigits, escapeDigits, List.take_append, List.takeWhile_append]
  split
  · next hall =>
    rw [hnil, List.append_nil]
    exact (List.IsPrefix.eq_of_length (List.takeWhile_prefix _) hall).symm
  · rfl

/-! ### Resolving escapes -/

/-- A hexadecimal escape takes its digits and a blank behind them. -/
theorem unescape_digits {text after rest : List Char} (hne : escapeDigits text ≠ [])
    (hafter : escapeDigits text ++ after = text)
    (hrest : ∀ c, rest.head? = some c → isHexDigit c = false) :
    unescape ('\\' :: (text ++ rest)) =
      charOfCode (hexNumber (escapeDigits text)) :: unescape (dropEscapeBlank (after ++ rest)) := by
  have hbehind : text ++ rest = escapeDigits text ++ (after ++ rest) := by
    rw [← List.append_assoc, hafter]
  have hdrop : (text ++ rest).drop (escapeDigits text).length = after ++ rest := by
    rw [hbehind, List.drop_left]
  rw [unescape.eq_def]
  simp [escapeDigits_append hrest, hne, hdrop]

theorem unescape_other {c : Char} (hc : isHexDigit c = false) (rest : List Char) :
    unescape ('\\' :: c :: rest) = if c = '\n' then unescape rest else c :: unescape rest := by
  have hdigits : escapeDigits (c :: rest) = [] := by simp [escapeDigits, hc]
  by_cases hbreak : c = '\n'
  · subst hbreak
    rw [unescape, hdigits]
    rfl
  · rw [unescape, hdigits, if_neg hbreak]
    · rfl
    · exact hbreak

/-! ### Names that end in an escape -/

/-- The last escape of a name is written in hexadecimal digits, and these reach up to its end. -/
inductive EndsInDigits : List Char → Prop
  | digits {digits : List Char} (hne : digits ≠ []) (hlength : digits.length ≤ 6)
      (hhex : ∀ c ∈ digits, isHexDigit c = true) : EndsInDigits ('\\' :: digits)
  | escape (c : Char) {rest : List Char} (h : EndsInDigits rest) : EndsInDigits ('\\' :: c :: rest)
  | plain {c : Char} {rest : List Char} (hc : c ≠ '\\') (h : EndsInDigits rest) :
      EndsInDigits (c :: rest)

theorem endsInDigits_cons {c : Char} {rest : List Char} (hc : c ≠ '\\') :
    EndsInDigits (c :: rest) ↔ EndsInDigits rest := by
  refine ⟨fun h => ?_, .plain hc⟩
  cases h with
  | digits => exact absurd rfl hc
  | escape => exact absurd rfl hc
  | plain _ h => exact h

theorem endsInDigits_append {front rest : List Char} (h : ∀ c ∈ front, c ≠ '\\') :
    EndsInDigits (front ++ rest) ↔ EndsInDigits rest := by
  induction front with
  | nil => rfl
  | cons c front ih =>
    rw [List.forall_mem_cons] at h
    rw [List.cons_append, endsInDigits_cons h.1, ih h.2]

theorem endsInDigits_other {c : Char} {rest : List Char} (hc : isHexDigit c = false) :
    EndsInDigits ('\\' :: c :: rest) ↔ EndsInDigits rest := by
  refine ⟨fun h => ?_, .escape c⟩
  cases h with
  | digits _ _ hhex => rw [hhex c (List.mem_cons_self ..)] at hc; cases hc
  | escape _ h => exact h
  | plain hne => exact absurd rfl hne

/-- A name that begins with an escape ends in one if its digits are all of the name, or if what is
behind them does. -/
theorem endsInDigits_digits {text after : List Char} (hne : escapeDigits text ≠ [])
    (hafter : escapeDigits text ++ after = text) :
    EndsInDigits ('\\' :: text) ↔ after = [] ∨ EndsInDigits after := by
  have hhex : ∀ c ∈ escapeDigits text, isHexDigit c = true :=
    fun _ => isHexDigit_of_mem_escapeDigits
  constructor
  · intro h
    cases h with
    | digits _ hlength hall =>
      rw [escapeDigits_eq_self hlength hall] at hafter
      exact .inl (List.append_right_eq_self.mp hafter)
    | @escape c rest h =>
      obtain ⟨digits, hdigits⟩ : ∃ digits, escapeDigits (c :: rest) = c :: digits := by
        obtain ⟨d, digits, hcons⟩ := List.exists_cons_of_ne_nil hne
        rw [hcons, List.cons_append] at hafter
        exact ⟨digits, (List.cons_eq_cons.mp hafter).1 ▸ hcons⟩
      rw [hdigits, List.cons_append] at hafter
      rw [← (List.cons_eq_cons.mp hafter).2] at h
      refine .inr ((endsInDigits_append fun d hd => ?_).mp h)
      exact ne_backslash_of_isHexDigit (hhex d (hdigits ▸ List.mem_cons_of_mem c hd))
    | plain hescape => exact absurd rfl hescape
  · rintro (rfl | h)
    · rw [List.append_nil] at hafter
      exact .digits (hafter ▸ hne) (hafter ▸ length_escapeDigits_le text) (hafter ▸ hhex)
    · obtain ⟨d, digits, hcons⟩ := List.exists_cons_of_ne_nil hne
      rw [hcons] at hafter hhex
      rw [← hafter]
      refine .escape d ((endsInDigits_append fun c hc => ?_).mpr h)
      exact ne_backslash_of_isHexDigit (hhex c (List.mem_cons_of_mem d hc))

/-! ### Names in front of a text -/

section Name

variable {name rest : List Char}

/-- A name without its first character is the name in front of the same text. -/
theorem spanName_of_cons {c : Char} (hc : c ≠ '\\')
    (h : spanName (c :: (name ++ rest)) = (c :: name, rest)) :
    isNameChar c = true ∧ spanName (name ++ rest) = (name, rest) := by
  have hname : isNameChar c = true := by
    by_contra hname
    have hnil : (spanName (c :: (name ++ rest))).1 = [] := by
      refine spanName_eq_nil_iff.mpr ⟨fun d tail heq => hc (List.cons_eq_cons.mp heq).1, ?_⟩
      rintro d ⟨⟩
      simpa using hname
    rw [h] at hnil
    cases hnil
  rw [spanName_cons hname] at h
  obtain ⟨hfront, hback⟩ := Prod.mk.inj h
  exact ⟨hname, Prod.ext (List.cons_eq_cons.mp hfront).2 hback⟩

theorem spanName_of_append {front : List Char} (hfront : ∀ c ∈ front, c ≠ '\\')
    (h : spanName (front ++ (name ++ rest)) = (front ++ name, rest)) :
    spanName (name ++ rest) = (name, rest) := by
  induction front with
  | nil => exact h
  | cons c front ih =>
    rw [List.forall_mem_cons] at hfront
    rw [List.cons_append, ← List.append_assoc] at h
    have htail := (spanName_of_cons hfront.1 h).2
    rw [List.append_assoc] at htail
    exact ih hfront.2 htail

theorem spanName_of_escape {c : Char}
    (h : spanName ('\\' :: c :: (name ++ rest)) = ('\\' :: c :: name, rest)) :
    spanName (name ++ rest) = (name, rest) := by
  obtain ⟨hfront, hback⟩ := Prod.mk.inj h
  simp only [List.cons.injEq, true_and] at hfront
  exact Prod.ext hfront hback

theorem dropEscapeBlank_of_spanName {c : Char}
    (h : spanName (c :: (name ++ rest)) = (c :: name, rest)) (text : List Char) :
    dropEscapeBlank (c :: text) = c :: text := by
  have hblank : isEscapeBlank c = false := by
    by_cases hescape : c = '\\'
    · subst hescape
      rfl
    · exact isEscapeBlank_of_isNameChar (spanName_of_cons hescape h).1
  rw [dropEscapeBlank, hblank]
  rfl

/-- No digit of an escape follows a name. -/
theorem isHexDigit_after (h : spanName (name ++ rest) = (name, rest)) :
    ∀ c, rest.head? = some c → isHexDigit c = false := by
  intro c hc
  rw [Bool.eq_false_iff]
  intro hhex
  have hnone := (spanName_eq_nil_iff.mp (spanName_after h)).2 c hc
  rw [isNameChar_of_isHexDigit hhex] at hnone
  cases hnone

/-- What is behind the digits of the first escape of a name is a name in front of the same text. -/
theorem spanName_of_digits {after : List Char} (hne : escapeDigits name ≠ [])
    (hafter : escapeDigits name ++ after = name)
    (h : spanName ('\\' :: (name ++ rest)) = ('\\' :: name, rest)) :
    spanName (after ++ rest) = (after, rest) := by
  have hhex : ∀ c ∈ escapeDigits name, c ≠ '\\' :=
    fun _ hc => ne_backslash_of_isHexDigit (isHexDigit_of_mem_escapeDigits hc)
  generalize escapeDigits name = digits at hne hafter hhex
  subst hafter
  obtain ⟨d, digits, rfl⟩ := List.exists_cons_of_ne_nil hne
  rw [List.forall_mem_cons] at hhex
  have htail : spanName ((digits ++ after) ++ rest) = (digits ++ after, rest) :=
    spanName_of_escape h
  rw [List.append_assoc] at htail
  exact spanName_of_append hhex.2 htail

/-- The blank behind a name that ends in an escape is taken by the escape. Everything else behind a
name is resolved as if it stood alone. -/
theorem unescape_name (h : spanName (name ++ rest) = (name, rest)) :
    (EndsInDigits name →
        unescape (name ++ rest) = unescape name ++ unescape (dropEscapeBlank rest)) ∧
      (¬ EndsInDigits name → unescape (name ++ rest) = unescape name ++ unescape rest) := by
  -- on the length of the name, since an escape is resolved with all of its digits
  induction hlength : name.length using Nat.strong_induction_on generalizing name with
  | _ length ih =>
    subst hlength
    cases name with
    | nil =>
      refine ⟨fun hends => ?_, fun _ => ?_⟩
      · cases hends
      · rw [unescape, List.nil_append, List.nil_append]
    | cons c tail =>
      by_cases hescape : c = '\\'
      · subst hescape
        by_cases hne : escapeDigits tail = []
        · cases tail with
          | nil => exact absurd (congrArg Prod.fst h) (spanName_ne_lone _)
          | cons d tail =>
            have hhex : isHexDigit d = false := by
              by_contra hhex
              simp [escapeDigits, hhex] at hne
            have hother := ih tail.length (by simp only [List.length_cons]; omega)
              (spanName_of_escape h) rfl
            simp only [List.cons_append, unescape_other hhex, endsInDigits_other hhex]
            split
            · exact hother
            · simpa only [List.cons_append, List.cons.injEq, true_and] using hother
        · obtain ⟨after, hafter⟩ := exists_escapeDigits_append tail
          have hbehind := spanName_of_digits hne hafter h
          have hwhole := unescape_digits hne hafter (isHexDigit_after h)
          have halone := @unescape_digits tail after [] hne hafter fun _ hhead => by cases hhead
          rw [List.append_nil, List.append_nil] at halone
          rw [endsInDigits_digits hne hafter, List.cons_append, hwhole, halone]
          cases after with
          | nil =>
            refine ⟨fun _ => ?_, fun hends => absurd (.inl rfl) hends⟩
            rw [dropEscapeBlank, unescape]
            rfl
          | cons e after =>
            have hshort : (e :: after).length < ('\\' :: tail).length := by
              have hlength := congrArg List.length hafter
              rw [List.length_append] at hlength
              simp only [List.length_cons] at hlength ⊢
              omega
            have hdigits := ih (e :: after).length hshort hbehind rfl
            rw [List.cons_append] at hbehind ⊢
            rw [dropEscapeBlank_of_spanName hbehind, dropEscapeBlank_of_spanName hbehind]
            simpa only [List.cons_append, List.cons.injEq, true_and, reduceCtorEq, false_or]
              using hdigits
      · have htail := (spanName_of_cons hescape h).2
        have hbehind := ih tail.length (by simp) htail rfl
        simp only [endsInDigits_cons hescape, List.cons_append, unescape_cons hescape,
          List.cons.injEq, true_and]
        exact hbehind

end Name

/-- What an identifier and the text behind it stand for together is what they stand for apart,
except that an escape at the end of the identifier takes a blank behind it. -/
theorem unescape_identifier {cur next : Cursor} {name : List Char}
    (h : cur.identifier? = some (name, next)) :
    unescape (name ++ next.rest) = unescape name ++ unescape next.rest ↔
      ¬ (EndsInDigits name ∧ next.rest.head?.any isEscapeBlank = true) := by
  have hname : spanName (name ++ next.rest) = (name, next.rest) := by
    unfold Cursor.identifier? at h
    split at h
    · cases h
      exact spanName_append_of rfl (spanName_after rfl)
    · cases h
  obtain ⟨hends, hother⟩ := unescape_name hname
  by_cases hdigits : EndsInDigits name
  · rw [hends hdigits, List.append_cancel_left_eq]
    cases hrest : next.rest with
    | nil => simp [dropEscapeBlank]
    | cons c rest =>
      cases hblank : isEscapeBlank c with
      | false => simp [dropEscapeBlank, hblank]
      | true =>
        have hc : c ≠ '\\' := by
          rintro rfl
          cases hblank
        simp [dropEscapeBlank, hblank, hdigits, unescape_cons hc]
  · simpa only [hdigits, false_and, not_false_eq_true, iff_true] using hother hdigits

/-! ### Names of escapes -/

/-- A character other than zero, written as a hexadecimal escape. -/
structure HexEscape where
  char : Char
  digits : List Char
  ne_zero : char ≠ '\x00'
  ne_nil : digits ≠ []
  length_le : digits.length ≤ 6
  hex : ∀ c ∈ digits, isHexDigit c = true
  value : hexNumber digits = char.toNat

namespace HexEscape

/-- The escape without a blank behind it. -/
def name (escape : HexEscape) : List Char :=
  '\\' :: escape.digits

/-- Escapes with a space behind each of them. -/
def spelled (escapes : List HexEscape) : List Char :=
  escapes.flatMap fun escape => escape.name ++ [' ']

/-- One identifier for each escape, the first one at an offset. -/
def identifiers : Nat → List HexEscape → List Component
  | _, [] => []
  | offset, escape :: escapes =>
    .token ⟨offset, offset + size escape.name⟩ (.ident (String.ofList [escape.char])) ::
      identifiers (offset + size (escape.name ++ [' '])) escapes

variable (escape : HexEscape) (escapes : List HexEscape)

theorem spelled_cons :
    spelled (escape :: escapes) = escape.name ++ ' ' :: spelled escapes := by
  simp [spelled]

theorem charOfCode_value : charOfCode (hexNumber escape.digits) = escape.char := by
  have hne : escape.char.toNat ≠ 0 := fun h => escape.ne_zero (Char.toNat_inj.mp h)
  have hvalid : escape.char.toNat.isValidChar := escape.char.valid
  rw [escape.value, charOfCode, if_pos ⟨hne, hvalid⟩, Char.ofNat_toNat]

/-- An escape stands for its character, and takes a blank behind it. -/
theorem unescape_name_append {rest : List Char}
    (hrest : ∀ c, rest.head? = some c → isHexDigit c = false) :
    unescape (escape.name ++ rest) = escape.char :: unescape (dropEscapeBlank rest) := by
  have hdigits := escapeDigits_eq_self escape.length_le escape.hex
  have hescape := @unescape_digits escape.digits [] rest (hdigits.symm ▸ escape.ne_nil)
    (by rw [hdigits, List.append_nil]) hrest
  rw [hdigits, charOfCode_value] at hescape
  exact hescape

theorem unescape_name : unescape escape.name = [escape.char] := by
  have halone := @unescape_name_append escape [] nofun
  rwa [List.append_nil, dropEscapeBlank, unescape] at halone

/-- `unescape` reads the name that is written in escapes. -/
theorem unescape_spelled : unescape (spelled escapes) = escapes.map char := by
  induction escapes with
  | nil => rw [spelled, List.flatMap_nil, List.map_nil, unescape]
  | cons escape escapes ih =>
    have hspace := @unescape_name_append escape (' ' :: spelled escapes) (by rintro c ⟨⟩; rfl)
    rw [dropEscapeBlank, if_pos (show isEscapeBlank ' ' = true from rfl), ih] at hspace
    rw [spelled_cons, hspace, List.map_cons]

/-- An escape in front of a space is an identifier. -/
theorem identifier?_name {cur : Cursor} {rest : List Char}
    (hrest : cur.rest = escape.name ++ ' ' :: rest) :
    cur.identifier? = some (escape.name, cur.pass escape.name (' ' :: rest)) := by
  obtain ⟨d, digits, hcons⟩ := List.exists_cons_of_ne_nil escape.ne_nil
  have hbegins : beginsIdentifier cur.rest = true := by
    rw [hrest, name, hcons]
    rfl
  have hspan : spanName cur.rest = (escape.name, ' ' :: rest) := by
    have hdigits : ∀ c ∈ digits, isNameChar c = true := fun c hc =>
      isNameChar_of_isHexDigit (escape.hex c (hcons ▸ List.mem_cons_of_mem d hc))
    have htail : spanName (digits ++ ' ' :: rest) = (digits, ' ' :: rest) :=
      spanName_of_all hdigits rfl
    rw [hrest, name, hcons, List.cons_append, List.cons_append, spanName, htail]
  rw [Cursor.identifier?, if_pos hbegins, Cursor.name, hspan]

/-- Escapes with a space behind each of them are read as one identifier for each escape. -/
theorem reading_spelled (offset : Nat) :
    ∃ last, Component.Reading false ⟨offset, spelled escapes⟩ (identifiers offset escapes) last ∧
      last.rest = [] := by
  induction escapes generalizing offset with
  | nil => exact ⟨_, .nil _ _, rfl⟩
  | cons escape escapes ih =>
    obtain ⟨last, hreading, hend⟩ := ih (offset + size (escape.name ++ [' ']))
    have hname := @identifier?_name escape ⟨offset, spelled (escape :: escapes)⟩ _
      (spelled_cons escape escapes)
    have hpiece := Cursor.piece?_of_identifier? hname nofun
    rw [escape.unescape_name] at hpiece
    have hspace : (Cursor.mk (offset + size escape.name) (' ' :: spelled escapes)).separator? =
        .ok (some ⟨offset + size (escape.name ++ [' ']), spelled escapes⟩) := by
      rw [Text.size_append, ← Nat.add_assoc]
      exact Cursor.separator?_of_reads (.blank rfl) ⟨rfl, rfl⟩
    have htoken : AtToken (spelled (escape :: escapes)) :=
      spelled_cons escape escapes ▸ atToken_of_ne (by decide) (by decide)
    exact ⟨last, .token htoken hpiece (.separator hspace hreading), hend⟩

theorem ofText?_spelled :
    Component.ofText? (String.ofList (spelled escapes)) = .ok (identifiers 0 escapes) := by
  obtain ⟨last, hreading, hend⟩ := reading_spelled escapes 0
  rw [Component.ofText?, String.toList_ofList]
  exact Component.readAll_eq_ok_iff.mpr ⟨last, hreading, hend⟩

theorem length_identifiers (offset : Nat) :
    (identifiers offset escapes).length = escapes.length := by
  induction escapes generalizing offset with
  | nil => rfl
  | cons escape escapes ih => rw [identifiers, List.length_cons, ih, List.length_cons]

/-- The name is read as one identifier exactly if it is one character. -/
theorem ofText?_spelled_eq_one_iff :
    (∃ span, Component.ofText? (String.ofList (spelled escapes)) =
        .ok [.token span (.ident (String.ofList (escapes.map char)))]) ↔ escapes.length = 1 := by
  rw [ofText?_spelled]
  constructor
  · rintro ⟨span, hread⟩
    have hlength := congrArg List.length (Except.ok.inj hread)
    rwa [length_identifiers] at hlength
  · intro hlength
    obtain ⟨escape, rfl⟩ := List.length_eq_one_iff.mp hlength
    exact ⟨_, rfl⟩

end HexEscape

/-- An identifier ends in front of the blank that closes its last escape, where `unescape` goes on
behind it. A name that is written in escapes with a space behind each is therefore resolved as a
whole but read as one identifier for each character, hence as one identifier exactly if it has one
character; and resolving an identifier and the text behind it apart is resolving them together
exactly if no such escape and blank meet. -/
theorem escape_ends_before_blank (escapes : List HexEscape) :
    (unescape (HexEscape.spelled escapes) = escapes.map HexEscape.char ∧
      Component.ofText? (String.ofList (HexEscape.spelled escapes)) =
        .ok (HexEscape.identifiers 0 escapes) ∧
      ((∃ span, Component.ofText? (String.ofList (HexEscape.spelled escapes)) =
        .ok [.token span (.ident (String.ofList (escapes.map HexEscape.char)))]) ↔
          escapes.length = 1)) ∧
    ∀ (cur next : Cursor) (name : List Char), cur.identifier? = some (name, next) →
      (unescape (name ++ next.rest) = unescape name ++ unescape next.rest ↔
        ¬ (EndsInDigits name ∧ next.rest.head?.any isEscapeBlank = true)) := by
  refine ⟨⟨?_, ?_, ?_⟩, fun cur next name h => unescape_identifier h⟩
  · exact HexEscape.unescape_spelled escapes
  · exact HexEscape.ofText?_spelled escapes
  · exact HexEscape.ofText?_spelled_eq_one_iff escapes

/-- The letter `A` as an escape. -/
def HexEscape.letterA : HexEscape :=
  ⟨'A', ['4', '1'], by decide, by decide, by decide, List.all_eq_true.mp (by decide), by decide⟩

/-- The letter `B` as an escape with all six digits. -/
def HexEscape.letterB : HexEscape :=
  ⟨'B', ['0', '0', '0', '0', '4', '2'], by decide, by decide, by decide,
    List.all_eq_true.mp (by decide), by decide⟩

/-- The name `AB` in escapes is read as two identifiers, and the space behind the first of them is
resolved with it and not without it. -/
theorem escape_ends_before_blank_of_two :
    Component.ofText? "\\41 \\000042 " =
        .ok [.token ⟨0, 3⟩ (.ident "A"), .token ⟨4, 11⟩ (.ident "B")] ∧
      (Cursor.start "\\41 \\000042 ".toList).identifier? =
        some ("\\41".toList, ⟨3, " \\000042 ".toList⟩) ∧
      unescape ("\\41".toList ++ " \\000042 ".toList) ≠
        unescape "\\41".toList ++ unescape " \\000042 ".toList := by
  obtain ⟨⟨-, hread, -⟩, hresolved⟩ :=
    escape_ends_before_blank [HexEscape.letterA, HexEscape.letterB]
  refine ⟨hread, rfl, fun happ => ?_⟩
  exact (hresolved (.start "\\41 \\000042 ".toList) _ _ rfl).mp happ
    ⟨.digits (by decide) (by decide) (List.all_eq_true.mp (by decide)), rfl⟩

/-- Neither is a name in escapes one identifier, nor is an identifier resolved apart from the text
behind it. -/
theorem escape_cut_from_blank :
    (¬ ∀ escapes : List HexEscape, escapes ≠ [] →
      ∃ span, Component.ofText? (String.ofList (HexEscape.spelled escapes)) =
        .ok [.token span (.ident (String.ofList (escapes.map HexEscape.char)))]) ∧
    ¬ ∀ (cur next : Cursor) (name : List Char), cur.identifier? = some (name, next) →
      unescape (name ++ next.rest) = unescape name ++ unescape next.rest := by
  refine ⟨fun hone => ?_, fun happend => ?_⟩
  · have hlength := HexEscape.ofText?_spelled_eq_one_iff [HexEscape.letterA, HexEscape.letterB]
    exact absurd (hlength.mp (hone _ (by simp))) (by simp)
  · have hends : EndsInDigits "\\41".toList :=
      .digits (by decide) (by decide) (List.all_eq_true.mp (by decide))
    have hname : (Cursor.start "\\41 ".toList).identifier? =
        some ("\\41".toList, ⟨3, [' ']⟩) := rfl
    exact (unescape_identifier hname).mp (happend _ _ _ hname) ⟨hends, rfl⟩

end WebFonts.Css
