import WebFonts.Proofs.FirstFamily
import WebFonts.Proofs.GeneratedRules
import WebFonts.Proofs.ImportantMark

/-!
# The families in a list of entries

An entry of a `font-family` value is a string or some words. `Listing` describes such values by
their entries, and `families_of_listing` says what `NamedFamilies.ofDeclaration?` finds in them. A
generic family and a keyword that every property accepts are no names, and this is decided word by
word: `Entry.wordByWord?` leaves such a word out wherever it stands. An entry with more than one
word is one name, of which a keyword is a part like any other (`Entry.asOne?`). The two differ
exactly for the entries that mix other words with a keyword or consist of several keywords
(`Entry.HidesKeyword`).
-/

namespace WebFonts.Css.NamedFamilies

open Text (size isBlank sameIgnoringCase trimEnd)
open Cursor (Reads)

/-! ### Entries and their text -/

/-- A word of a family name. No escape and no blank stands in it. -/
structure Word where
  first : Char
  others : List Char
  starts : isNameStart first = true
  goesOn : ∀ c ∈ others, isNameChar c = true
  unbroken : ∀ c ∈ first :: others, isBlank c = false

/-- The characters of a word. -/
def Word.text (word : Word) : List Char :=
  word.first :: word.others

/-- A word as a name. -/
def Word.name (word : Word) : String :=
  String.ofList word.text

/-- Some spaces. -/
def spaces (n : Nat) : List Char :=
  List.replicate n ' '

/-- Words with at least one space in front of each of them. -/
def spaced (words : List (Nat × Word)) : List Char :=
  words.flatMap fun (n, word) => spaces (n + 1) ++ word.text

/-- An entry of a list of families: a whole string, or words with spaces between them. -/
inductive Entry where
  | quoted (text : List Char) (closed : (Lexeme.quoted text).Before [])
  | words (first : Word) (others : List (Nat × Word))

/-- The characters of an entry. -/
def Entry.text : Entry → List Char
  | quoted text _ => text
  | words first others => first.text ++ spaced others

/-- Entries with a comma in front of each of them, and spaces around the comma. -/
def separated (entries : List (Nat × Nat × Entry)) : List Char :=
  entries.flatMap fun (n, m, entry) => spaces n ++ ',' :: (spaces m ++ entry.text)

/-- A list of entries, with spaces in front and behind. -/
structure Listing where
  lead : Nat
  first : Entry
  others : List (Nat × Nat × Entry)
  trail : Nat

/-- The entries of a list. -/
def Listing.entries (listing : Listing) : List Entry :=
  listing.first :: listing.others.map (·.2.2)

/-- The characters of a list, without the spaces behind it. -/
def Listing.text (listing : Listing) : List Char :=
  spaces listing.lead ++ (listing.first.text ++ separated listing.others)

/-! ### The names of entries -/

/-- Whether a word is a generic family or a keyword that every property accepts. -/
def isKeyword (name : String) : Bool :=
  (GenericFamily.ofKeyword? name).isSome || wideKeywords.any (sameIgnoringCase · name)

/-- Words with the offsets at which they end, the first spaces standing at an offset. -/
def ends : Nat → List (Nat × Word) → List (String × Nat)
  | _, [] => []
  | offset, (n, word) :: words =>
    let stop := offset + (n + 1) + size word.text
    (word.name, stop) :: ends stop words

/-- Words as one name, which ends with the last of them. -/
def join? (words : List (String × Nat)) : Option (String × Nat) :=
  words.getLast?.map fun (_, stop) => (" ".intercalate (words.map (·.1)), stop)

/-- The words of an entry that stands at an offset, with the offsets at which they end. -/
def Entry.wordEnds (offset : Nat) (first : Word) (others : List (Nat × Word)) :
    List (String × Nat) :=
  let stop := offset + size first.text
  (first.name, stop) :: ends stop others

/-- The name of an entry at an offset and its end, if keywords are left out wherever they stand. -/
def Entry.wordByWord? (offset : Nat) : Entry → Option (String × Nat)
  | quoted text _ => some (contents text, offset + size text)
  | words first others =>
    join? ((wordEnds offset first others).filter fun word => !isKeyword word.1)

/-- The name of an entry at an offset and its end, if only an entry that is a keyword is left
out. -/
def Entry.asOne? (offset : Nat) : Entry → Option (String × Nat)
  | quoted text _ => some (contents text, offset + size text)
  | words first [] =>
    if isKeyword first.name then none else some (first.name, offset + size first.text)
  | words first (second :: others) =>
    some (" ".intercalate (first.name :: (second :: others).map (·.2.name)),
      offset + size (first.text ++ spaced (second :: others)))

/-- A keyword is one of several words of an entry. -/
def Entry.HidesKeyword : Entry → Prop
  | quoted _ _ => False
  | words first others => others ≠ [] ∧ ∃ word ∈ first :: others.map (·.2), isKeyword word.name

instance : DecidablePred Entry.HidesKeyword
  | .quoted _ _ => .isFalse id
  | .words first others =>
    inferInstanceAs <| Decidable <|
      others ≠ [] ∧ ∃ word ∈ first :: others.map (·.2), isKeyword word.name

/-- The names of entries behind commas, the first spaces standing at an offset. -/
def namesBehind (name? : Nat → Entry → Option (String × Nat)) :
    Nat → List (Nat × Nat × Entry) → List (String × Nat)
  | _, [] => []
  | offset, (n, m, entry) :: entries =>
    let start := offset + n + 1 + m
    (name? start entry).toList ++ namesBehind name? (start + size entry.text) entries

/-- The names in a list of entries that stands at an offset. -/
def Listing.names (name? : Nat → Entry → Option (String × Nat)) (offset : Nat)
    (listing : Listing) : List (String × Nat) :=
  let start := offset + listing.lead
  (name? start listing.first).toList ++
    namesBehind name? (start + size listing.first.text) listing.others

/-! ### Reading entries -/

@[simp] theorem size_spaces (n : Nat) : size (spaces n) = n := by
  induction n with
  | zero => rfl
  | succ n ih =>
    rw [spaces, List.replicate_succ, Text.size_cons, ← spaces, ih, Nat.add_comm]
    rfl

theorem trivia_spaces (n : Nat) : Trivia (spaces n) :=
  .of_whitespace fun c hc => by rw [(List.mem_replicate.mp hc).2]; rfl

theorem parted_spaced (words : List (Nat × Word)) {rest : List Char} (h : Parted rest) :
    Parted (spaced words ++ rest) := by
  cases words with
  | nil => exact h
  | cons word words => exact .cons _ rfl

theorem parted_separated (entries : List (Nat × Nat × Entry)) {rest : List Char}
    (h : Parted rest) : Parted (separated entries ++ rest) := by
  cases entries with
  | nil => exact h
  | cons entry entries =>
    obtain ⟨n, m, entry⟩ := entry
    have hcomma := (trivia_spaces n).parted
      (.comma ((spaces m ++ entry.text) ++ (separated entries ++ rest)))
    simpa [separated] using hcomma

theorem Word.atToken (word : Word) (rest : List Char) : AtToken (word.text ++ rest) :=
  atToken_of_isNameStart word.starts (word.others ++ rest)

theorem word?_ident (span : Span) (name : String) :
    word? (.token span (.ident name)) =
      if isKeyword name then none else some (name, span.stop) := rfl

/-- Components are read behind spaces as they are without them. -/
theorem reading_behind_spaces {offset n : Nat} {text : List Char} {components : List Component}
    {last : Cursor} (h : Component.Reading false ⟨offset + n, text⟩ components last) :
    Component.Reading false ⟨offset, spaces n ++ text⟩ components last :=
  h.of_trivia (trivia_spaces n) ⟨rfl, by simp⟩

section Reading

variable {rest : List Char} (hparted : Parted rest) (offset : Nat)

include hparted

/-- A word is an identifier. -/
theorem Word.piece? (word : Word) :
    (Cursor.mk offset (word.text ++ rest)).piece? =
      .ok (some (.token (.ident word.name), ⟨offset + size word.text, rest⟩)) := by
  have hname := Cursor.identifier?_of_all word.starts word.goesOn hparted.spanName offset
  have hpiece := Cursor.piece?_of_identifier? hname (hparted.head?_ne rfl)
  have hescape : ∀ c ∈ word.text, c ≠ '\\' := by
    rw [text, List.forall_mem_cons]
    refine ⟨?_, fun c hc => ?_⟩
    · rintro heq
      have := word.starts
      rw [heq] at this
      cases this
    · rintro rfl
      cases word.goesOn _ hc
  rw [← text, unescape_word hescape] at hpiece
  exact hpiece

/-- A string is read as what it stands for. -/
theorem piece?_quoted {text : List Char} (closed : (Lexeme.quoted text).Before []) :
    (Cursor.mk offset (text ++ rest)).piece? =
      .ok (some (.token (.string (contents text)), ⟨offset + size text, rest⟩)) := by
  have hbefore : (Lexeme.quoted text).Before rest := closed.recut nofun (hparted.head?_ne rfl)
  have hquoted : (Cursor.mk offset (text ++ rest)).quoted? =
      some (contents text, ⟨offset + size text, rest⟩) :=
    Cursor.quoted?_eq_some_iff.mpr ⟨text, rfl, Cursor.lexeme?_of_before hbefore ⟨rfl, rfl⟩⟩
  cases closed with
  | quoted hquote hclose =>
    unfold Cursor.piece?
    simp only [List.cons_append]
    rw [if_pos hquote]
    rw [List.cons_append] at hquoted
    rw [hquoted]

/-- Words behind spaces are read one by one, and those that are no keywords are words of a name. -/
theorem reading_spaced (words : List (Nat × Word)) :
    ∃ components, Component.Reading false ⟨offset, spaced words ++ rest⟩ components
        ⟨offset + size (spaced words), rest⟩ ∧
      (∀ component ∈ components, isComma component = false ∧ string? component = none) ∧
      components.filterMap word? =
        (ends offset words).filter fun word => !isKeyword word.1 := by
  induction words generalizing offset with
  | nil => exact ⟨[], .nil _ _, nofun, rfl⟩
  | cons word words ih =>
    obtain ⟨n, word⟩ := word
    obtain ⟨components, hreading, hplain, hwords⟩ := ih (offset + (n + 1) + size word.text)
    have hbehind := parted_spaced words hparted
    have htoken := Component.Reading.token (word.atToken _)
      (word.piece? hbehind (offset + (n + 1))) hreading
    have htext : spaced ((n, word) :: words) ++ rest =
        spaces (n + 1) ++ (word.text ++ (spaced words ++ rest)) := by
      simp [spaced]
    have hstop : offset + size (spaced ((n, word) :: words)) =
        offset + (n + 1) + size word.text + size (spaced words) := by
      simp [spaced, Nat.add_assoc]
    have hspaced := reading_behind_spaces htoken
    rw [← htext, ← hstop] at hspaced
    refine ⟨_, hspaced, ?_, ?_⟩
    · exact List.forall_mem_cons.mpr ⟨⟨rfl, rfl⟩, hplain⟩
    · rw [ends, List.filterMap_cons, List.filter_cons, word?_ident, hwords]
      cases isKeyword word.name <;> rfl

/-- An entry is read as one name or as none. -/
theorem Entry.reading (entry : Entry) :
    ∃ components, Component.Reading false ⟨offset, entry.text ++ rest⟩ components
        ⟨offset + size entry.text, rest⟩ ∧
      (∀ component ∈ components, isComma component = false) ∧
      namesIn components = (entry.wordByWord? offset).toList := by
  cases entry with
  | quoted text closed =>
    have hpiece := piece?_quoted hparted offset closed
    have htoken : AtToken (text ++ rest) := by
      cases closed with
      | quoted hquote =>
        simp only [isQuote, Bool.or_eq_true, beq_iff_eq] at hquote
        rcases hquote with rfl | rfl <;> exact atToken_of_ne (by decide) (by decide)
    exact ⟨_, .token htoken hpiece (.nil _ _), by simp [isComma], rfl⟩
  | words first others =>
    obtain ⟨components, hreading, hplain, hwords⟩ :=
      reading_spaced hparted (offset + size first.text) others
    have hbehind := parted_spaced others hparted
    have htoken := Component.Reading.token (first.atToken _) (first.piece? hbehind offset) hreading
    rw [Nat.add_assoc, ← Text.size_append, ← List.append_assoc] at htoken
    refine ⟨_, htoken, ?_, ?_⟩
    · exact List.forall_mem_cons.mpr ⟨rfl, fun component hmem => (hplain component hmem).1⟩
    · have hstrings : components.filterMap string? = [] :=
        List.filterMap_eq_nil_iff.mpr fun component hmem => (hplain component hmem).2
      rw [namesIn, List.filterMap_cons_none rfl, hstrings, List.nil_append, joinedWords?,
        List.filterMap_cons, word?_ident, hwords, wordByWord?, wordEnds, List.filter_cons]
      cases isKeyword first.name <;> rfl

/-- Entries behind commas are read one by one. -/
theorem reading_separated (entries : List (Nat × Nat × Entry)) :
    ∃ components, Component.Reading false ⟨offset, separated entries ++ rest⟩ components
        ⟨offset + size (separated entries), rest⟩ ∧
      ∀ front : List Component, (∀ component ∈ front, isComma component = false) →
        namesOf (front ++ components) =
          namesIn front ++ namesBehind Entry.wordByWord? offset entries := by
  induction entries generalizing offset with
  | nil =>
    refine ⟨[], .nil _ _, fun front hfront => ?_⟩
    rw [List.append_nil, namesOf_of_no_comma hfront, namesBehind, List.append_nil]
  | cons entry entries ih =>
    obtain ⟨n, m, entry⟩ := entry
    obtain ⟨others, hothers, hnamesOthers⟩ := ih (offset + n + 1 + m + size entry.text)
    obtain ⟨components, hcomponents, hplain, hnames⟩ :=
      entry.reading (parted_separated entries hparted) (offset + n + 1 + m)
    have hentry := reading_behind_spaces (hcomponents.append hothers)
    have hcomma : (Cursor.mk (offset + n)
        (',' :: (spaces m ++ (entry.text ++ (separated entries ++ rest))))).piece? =
        .ok (some (.token .comma,
          ⟨offset + n + 1, spaces m ++ (entry.text ++ (separated entries ++ rest))⟩)) := rfl
    have hspaced := reading_behind_spaces
      (Component.Reading.token (atToken_of_ne (by decide) (by decide)) hcomma hentry)
    have htext : separated ((n, m, entry) :: entries) ++ rest =
        spaces n ++ (',' :: (spaces m ++ (entry.text ++ (separated entries ++ rest)))) := by
      simp [separated]
    have hstop : offset + size (separated ((n, m, entry) :: entries)) =
        offset + n + 1 + m + size entry.text + size (separated entries) := by
      have hone : ','.utf8Size = 1 := rfl
      simp [separated, hone]
      omega
    rw [← htext, ← hstop] at hspaced
    refine ⟨_, hspaced, fun front hfront => ?_⟩
    rw [namesOf_append_comma rfl, namesOf_of_no_comma hfront, hnamesOthers components hplain,
      hnames]
    rfl

end Reading

/-- A list of entries is read entry by entry. -/
theorem Listing.reading (listing : Listing) (offset : Nat) :
    ∃ components, Component.readAll ⟨offset, listing.text⟩ = .ok components ∧
      namesOf components = listing.names Entry.wordByWord? offset := by
  obtain ⟨others, hothers, hnamesOthers⟩ := reading_separated .ended
    (offset + listing.lead + size listing.first.text) listing.others
  obtain ⟨components, hcomponents, hplain, hnames⟩ :=
    listing.first.reading (parted_separated listing.others .ended) (offset + listing.lead)
  have hreading := reading_behind_spaces (hcomponents.append hothers)
  rw [List.append_nil] at hreading
  refine ⟨components ++ others, Component.readAll_eq_ok_iff.mpr ⟨_, hreading, rfl⟩, ?_⟩
  rw [hnamesOthers components hplain, hnames, names]

/-! ### The end of a list -/

/-- A text ends in a character that is not blank. -/
def EndsDark (text : List Char) : Prop :=
  ∃ c, text.getLast? = some c ∧ isBlank c = false

theorem EndsDark.append {back : List Char} (h : EndsDark back) (front : List Char) :
    EndsDark (front ++ back) := by
  obtain ⟨c, hlast, hc⟩ := h
  have hne : back ≠ [] := by
    rintro rfl
    cases hlast
  exact ⟨c, by rw [List.getLast?_append_of_ne_nil _ hne, hlast], hc⟩

theorem Word.endsDark (word : Word) : EndsDark word.text := by
  obtain ⟨c, hlast⟩ : ∃ c, word.text.getLast? = some c := by
    rw [text, List.getLast?_cons]
    exact ⟨_, rfl⟩
  exact ⟨c, hlast, word.unbroken c (List.mem_of_getLast? hlast)⟩

theorem Entry.endsDark (entry : Entry) : EndsDark entry.text := by
  cases entry with
  | quoted text closed =>
    cases closed with
    | @quoted quote _ _ hquote hclose =>
      refine ⟨quote, ?_, ?_⟩
      · rw [Entry.text, List.getLast?_cons, getLast?_of_closeQuote? hclose, Option.getD_some]
      · simp only [isQuote, Bool.or_eq_true, beq_iff_eq] at hquote
        rcases hquote with rfl | rfl <;> rfl
  | words first others =>
    cases others using List.reverseRecOn with
    | nil =>
      rw [Entry.text, spaced, List.flatMap_nil, List.append_nil]
      exact first.endsDark
    | append_singleton others last =>
      have hlast : EndsDark (spaced (others ++ [last])) := by
        rw [spaced, List.flatMap_append, List.flatMap_singleton]
        exact (last.2.endsDark.append _).append _
      exact hlast.append _

theorem Listing.endsDark (listing : Listing) : EndsDark listing.text := by
  obtain ⟨lead, first, others, trail⟩ := listing
  cases others using List.reverseRecOn with
  | nil =>
    rw [Listing.text, separated, List.flatMap_nil, List.append_nil]
    exact first.endsDark.append _
  | append_singleton others last =>
    have hlast : EndsDark (separated (others ++ [last])) := by
      rw [separated, List.flatMap_append, List.flatMap_singleton]
      exact ((last.2.2.endsDark.append _).append [',']).append _ |>.append _
    exact (hlast.append _).append _

theorem trimEnd_spaces (n : Nat) : trimEnd (spaces n) = [] := by
  induction n with
  | zero => rfl
  | succ n ih =>
    rw [spaces, List.replicate_succ, trimEnd_cons, ← spaces, ih, if_pos rfl]
    rfl

theorem Listing.trimEnd_text (listing : Listing) :
    trimEnd (listing.text ++ spaces listing.trail) = listing.text := by
  obtain ⟨c, hlast, hc⟩ := listing.endsDark
  rw [trimEnd_append, if_pos (trimEnd_spaces _), trimEnd_of_getLast? hlast hc]

/-! ### No mark in a list -/

theorem unmarked_spaces (n : Nat) : Unmarked (spaces n) := by
  refine .of_plain (fun c hc => ?_) fun hmem => ?_
  · rw [List.eq_of_mem_replicate hc]
    decide
  · exact absurd (List.eq_of_mem_replicate hmem) (by decide)

theorem Word.unmarked (word : Word) : Unmarked word.text := by
  have hname : ∀ c ∈ word.text, isNameChar c = true := by
    rw [text, List.forall_mem_cons]
    exact ⟨by simp [isNameChar, word.starts], word.goesOn⟩
  refine .of_plain (fun c hc => ⟨?_, ?_, ?_⟩) fun hmem => ?_
  · rintro rfl
    cases hname _ hc
  · rintro rfl
    cases hname _ hc
  · rw [Bool.eq_false_iff]
    intro hquote
    simp only [isQuote, Bool.or_eq_true, beq_iff_eq] at hquote
    rcases hquote with rfl | rfl <;> cases hname _ hc
  · cases hname _ hmem

theorem Entry.unmarked (entry : Entry) : Unmarked entry.text := by
  cases entry with
  | quoted text closed => exact .of_quoted closed
  | words first others =>
    exact first.unmarked.append
      (.flatMap (fun word => (unmarked_spaces _).append word.2.unmarked) others)

theorem Listing.unmarked (listing : Listing) :
    Unmarked (listing.text ++ spaces listing.trail) := by
  have hcomma : Unmarked [','] := .of_plain (List.forall_mem_singleton.mpr (by decide)) (by decide)
  have hothers : Unmarked (separated listing.others) := by
    refine .flatMap (fun entry => (unmarked_spaces _).append ?_) listing.others
    exact hcomma.append ((unmarked_spaces _).append entry.2.2.unmarked)
  exact ((unmarked_spaces _).append (listing.first.unmarked.append hothers)).append
    (unmarked_spaces _)

/-! ### Names as one and word by word -/

/-- The length of some names, with one for each name itself. -/
def weight : List (String × Nat) → Nat
  | [] => 0
  | name :: names => name.1.length + 1 + weight names

theorem weight_append (front back : List (String × Nat)) :
    weight (front ++ back) = weight front + weight back := by
  induction front with
  | nil => exact (Nat.zero_add _).symm
  | cons name front ih => rw [List.cons_append, weight, weight, ih, Nat.add_assoc _ (weight front)]

/-- Only the names count, not where they end. -/
theorem weight_congr {names names' : List (String × Nat)}
    (h : names.map (·.1) = names'.map (·.1)) : weight names = weight names' := by
  induction names generalizing names' with
  | nil => rw [List.map_eq_nil_iff.mp h.symm]
  | cons name names ih =>
    obtain ⟨name', others, rfl, hname, hothers⟩ := List.map_eq_cons_iff.mp h.symm
    have hlength : name'.1.length = name.1.length := congrArg String.length hname
    rw [weight, weight, hlength, ih hothers.symm]

theorem weight_filter_le (p : String × Nat → Bool) (names : List (String × Nat)) :
    weight (names.filter p) ≤ weight names := by
  induction names with
  | nil => exact Nat.le_refl _
  | cons name names ih =>
    rw [List.filter_cons, weight]
    split
    · rw [weight]
      omega
    · omega

/-- Where a name is left out, something is missing. -/
theorem weight_filter_lt {p : String × Nat → Bool} {names : List (String × Nat)}
    (h : ∃ name ∈ names, p name = false) : weight (names.filter p) < weight names := by
  obtain ⟨name, hmem, hname⟩ := h
  obtain ⟨front, back, rfl⟩ := List.append_of_mem hmem
  have hfront := weight_filter_le p front
  have hback := weight_filter_le p back
  rw [List.filter_append, List.filter_cons_of_neg (by simp [hname]), weight_append, weight_append,
    weight]
  omega

theorem length_intercalate (word : String × Nat) (words : List (String × Nat)) :
    (" ".intercalate ((word :: words).map (·.1))).length + 1 = weight (word :: words) := by
  induction words generalizing word with
  | nil => simp [weight]
  | cons second words ih =>
    have hjoin : " ".intercalate ((word :: second :: words).map (·.1)) =
        word.1 ++ " " ++ " ".intercalate ((second :: words).map (·.1)) :=
      String.intercalate_cons_cons
    have hspace : " ".length = 1 := rfl
    rw [hjoin, weight, ← ih second, String.length_append, String.length_append]
    omega

/-- Joining words loses none of them. -/
theorem weight_join? (words : List (String × Nat)) :
    weight (join? words).toList = weight words := by
  cases words with
  | nil => rfl
  | cons word words =>
    have hjoin : join? (word :: words) = some (" ".intercalate ((word :: words).map (·.1)),
        ((word :: words).getLast (List.cons_ne_nil _ _)).2) := by
      rw [join?, List.getLast?_eq_getLast_of_ne_nil (List.cons_ne_nil _ _)]
      rfl
    rw [hjoin, Option.toList_some, weight, weight, Nat.add_zero, length_intercalate]

theorem map_fst_ends (offset : Nat) (words : List (Nat × Word)) :
    (ends offset words).map (·.1) = words.map (·.2.name) := by
  induction words generalizing offset with
  | nil => rfl
  | cons word words ih => rw [ends, List.map_cons, List.map_cons, ih]

/-- Words end where their text does. -/
theorem getLast?_ends (name : String) (offset : Nat) (words : List (Nat × Word)) :
    ((name, offset) :: ends offset words).getLast?.map (·.2) =
      some (offset + size (spaced words)) := by
  induction words generalizing name offset with
  | nil => rfl
  | cons word words ih =>
    obtain ⟨n, word⟩ := word
    rw [ends, List.getLast?_cons_cons, ih]
    simp [spaced, Nat.add_assoc]

theorem map_fst_wordEnds (offset : Nat) (first : Word) (others : List (Nat × Word)) :
    (Entry.wordEnds offset first others).map (·.1) = first.name :: others.map (·.2.name) := by
  rw [Entry.wordEnds, List.map_cons, map_fst_ends]

namespace Entry

/-- As one name, words are joined unless a keyword is the only one of them. -/
theorem asOne?_words (offset : Nat) (first : Word) (others : List (Nat × Word)) :
    (words first others).asOne? offset =
      if others = [] ∧ isKeyword first.name = true then none
      else join? (wordEnds offset first others) := by
  cases others with
  | nil => simp [asOne?, wordEnds, ends, join?]
  | cons second others =>
    have hlast := getLast?_ends first.name (offset + size first.text) (second :: others)
    obtain ⟨⟨name, stop⟩, hfound, hstop⟩ := Option.map_eq_some_iff.mp hlast
    rw [if_neg (by simp), join?, map_fst_wordEnds, asOne?, wordEnds, hfound, Text.size_append,
      ← Nat.add_assoc, ← hstop]
    rfl

/-- Without a hidden keyword, an entry has one name in either way. -/
theorem wordByWord?_eq_asOne? {entry : Entry} (h : ¬ entry.HidesKeyword) (offset : Nat) :
    entry.wordByWord? offset = entry.asOne? offset := by
  cases entry with
  | quoted text _ => rfl
  | words first others =>
    rw [asOne?_words, wordByWord?]
    by_cases hothers : others = []
    · subst hothers
      cases hkeyword : isKeyword first.name <;> simp [wordEnds, ends, hkeyword, join?]
    · have hwords : ∀ word ∈ wordEnds offset first others, (!isKeyword word.1) = true := by
        intro word hmem
        have hname := List.mem_map_of_mem (f := (·.1)) hmem
        rw [map_fst_wordEnds] at hname
        rw [Bool.not_eq_true']
        by_contra hkeyword
        refine h ⟨hothers, ?_⟩
        simp only [List.mem_cons, List.mem_map] at hname
        rcases hname with heq | ⟨other, hother, heq⟩
        · exact ⟨first, List.mem_cons_self .., by simpa [← heq] using hkeyword⟩
        · refine ⟨other.2, List.mem_cons_of_mem _ (List.mem_map_of_mem hother), ?_⟩
          simpa [heq] using hkeyword
      rw [if_neg (fun hand => hothers hand.1), List.filter_eq_self.mpr hwords]

/-- A hidden keyword is missing in the name. -/
theorem weight_lt {entry : Entry} (h : entry.HidesKeyword) (offset : Nat) :
    weight (entry.wordByWord? offset).toList < weight (entry.asOne? offset).toList := by
  cases entry with
  | quoted => exact h.elim
  | words first others =>
    obtain ⟨hothers, word, hmem, hkeyword⟩ := h
    rw [asOne?_words, if_neg (fun hand => hothers hand.1), wordByWord?, weight_join?, weight_join?]
    have hname : word.name ∈ (wordEnds offset first others).map (·.1) := by
      rw [map_fst_wordEnds]
      have hnamed := List.mem_map_of_mem (f := Word.name) hmem
      rwa [List.map_cons, List.map_map] at hnamed
    obtain ⟨found, hfound, heq⟩ := List.mem_map.mp hname
    exact weight_filter_lt ⟨found, hfound, by simp [heq, hkeyword]⟩

theorem weight_le (entry : Entry) (offset : Nat) :
    weight (entry.wordByWord? offset).toList ≤ weight (entry.asOne? offset).toList := by
  by_cases h : entry.HidesKeyword
  · exact (weight_lt h offset).le
  · rw [wordByWord?_eq_asOne? h]

end Entry

theorem weight_namesBehind_le (offset : Nat) (entries : List (Nat × Nat × Entry)) :
    weight (namesBehind Entry.wordByWord? offset entries) ≤
      weight (namesBehind Entry.asOne? offset entries) := by
  induction entries generalizing offset with
  | nil => exact Nat.le_refl _
  | cons entry entries ih =>
    obtain ⟨n, m, entry⟩ := entry
    rw [namesBehind, namesBehind, weight_append, weight_append]
    exact Nat.add_le_add (entry.weight_le _) (ih _)

theorem weight_namesBehind_lt {entries : List (Nat × Nat × Entry)}
    (h : ∃ entry ∈ entries.map (·.2.2), entry.HidesKeyword) (offset : Nat) :
    weight (namesBehind Entry.wordByWord? offset entries) <
      weight (namesBehind Entry.asOne? offset entries) := by
  induction entries generalizing offset with
  | nil => simp at h
  | cons entry entries ih =>
    obtain ⟨n, m, entry⟩ := entry
    rw [namesBehind, namesBehind, weight_append, weight_append]
    simp only [List.map_cons, List.mem_cons, exists_eq_or_imp] at h
    rcases h with hentry | hothers
    · exact Nat.add_lt_add_of_lt_of_le (Entry.weight_lt hentry _) (weight_namesBehind_le _ _)
    · exact Nat.add_lt_add_of_le_of_lt (entry.weight_le _) (ih hothers _)

theorem namesBehind_eq {entries : List (Nat × Nat × Entry)}
    (h : ∀ entry ∈ entries.map (·.2.2), ¬ entry.HidesKeyword) (offset : Nat) :
    namesBehind Entry.wordByWord? offset entries = namesBehind Entry.asOne? offset entries := by
  induction entries generalizing offset with
  | nil => rfl
  | cons entry entries ih =>
    obtain ⟨n, m, entry⟩ := entry
    rw [List.map_cons, List.forall_mem_cons] at h
    rw [namesBehind, namesBehind, Entry.wordByWord?_eq_asOne? h.1, ih h.2]

/-- Without hidden keywords, each entry of a list has one name in either way. -/
theorem Listing.names_eq {listing : Listing}
    (h : ∀ entry ∈ listing.entries, ¬ entry.HidesKeyword) (offset : Nat) :
    listing.names Entry.wordByWord? offset = listing.names Entry.asOne? offset := by
  rw [entries, List.forall_mem_cons] at h
  rw [names, names, Entry.wordByWord?_eq_asOne? h.1, namesBehind_eq h.2]

/-- A hidden keyword is missing in the names of a list. -/
theorem Listing.weight_lt {listing : Listing}
    (h : ∃ entry ∈ listing.entries, entry.HidesKeyword) (offset : Nat) :
    weight (listing.names Entry.wordByWord? offset) <
      weight (listing.names Entry.asOne? offset) := by
  simp only [entries, List.mem_cons, exists_eq_or_imp] at h
  rw [names, names, weight_append, weight_append]
  rcases h with hfirst | hothers
  · exact Nat.add_lt_add_of_lt_of_le (Entry.weight_lt hfirst _) (weight_namesBehind_le _ _)
  · exact Nat.add_lt_add_of_le_of_lt (listing.first.weight_le _) (weight_namesBehind_lt hothers _)

/-- The names of a list are those of its entries exactly if no entry hides a keyword. -/
theorem Listing.map_fst_names_eq_iff (listing : Listing) (offset : Nat) :
    (listing.names Entry.wordByWord? offset).map (·.1) =
        (listing.names Entry.asOne? offset).map (·.1) ↔
      ∀ entry ∈ listing.entries, ¬ entry.HidesKeyword := by
  refine ⟨fun heq => ?_, fun h => by rw [names_eq h]⟩
  by_contra hhidden
  push Not at hhidden
  have hlt := weight_lt hhidden offset
  rw [weight_congr heq] at hlt
  exact Nat.lt_irrefl _ hlt

/-! ### The families of a list -/

/-- A list of entries is read from every declaration of `font-family` in which it stands. -/
theorem exists_families {heading : List Char}
    (hheading : Declaration.Heading "font-family" heading) (offset : Nat) (listing : Listing) :
    ∃ declaration families,
      Declaration.ofStatement? ⟨offset, heading ++ (listing.text ++ spaces listing.trail)⟩ =
        .ok declaration ∧
      ofDeclaration? declaration = .ok families ∧
      families.names =
        (listing.names Entry.wordByWord? (offset + size heading)).map (·.1) ∧
      families.firstStop =
        (listing.names Entry.wordByWord? (offset + size heading)).head?.map (·.2) := by
  obtain ⟨components, hread, hnames⟩ := listing.reading (offset + size heading)
  have hcustom : isCustomProperty "font-family" = false := by decide +kernel
  have hvalue : Declaration.readValue "font-family"
      ⟨offset + size heading, listing.text ++ spaces listing.trail⟩
      (cutImportant (listing.text ++ spaces listing.trail)).1 = .ok (.components components) := by
    rw [listing.unmarked.cutImportant, Declaration.readValue, listing.trimEnd_text, hcustom]
    simp [hread]
  refine ⟨_, ofComponents components, Declaration.ofStatement?_of_heading hheading hvalue, rfl, ?_⟩
  rw [← hnames]
  exact ⟨rfl, rfl⟩

/-- A list of entries is read from every declaration of `font-family` in which it stands. Each entry
has one name, which is its string or its words without the generic families and the keywords that
every property accepts among them, and no name if nothing is left; the offset behind the first name
is the end of its last token. The entries have these names as wholes, so that only an entry that
consists of such a keyword is left out, exactly if no entry with several words holds one. -/
theorem families_of_listing {heading : List Char}
    (hheading : Declaration.Heading "font-family" heading) (offset : Nat) (listing : Listing) :
    ∃ declaration families,
      Declaration.ofStatement? ⟨offset, heading ++ (listing.text ++ spaces listing.trail)⟩ =
        .ok declaration ∧
      ofDeclaration? declaration = .ok families ∧
      families.names =
        (listing.names Entry.wordByWord? (offset + size heading)).map (·.1) ∧
      families.firstStop =
        (listing.names Entry.wordByWord? (offset + size heading)).head?.map (·.2) ∧
      (families.names = (listing.names Entry.asOne? (offset + size heading)).map (·.1) ∧
          families.firstStop =
            (listing.names Entry.asOne? (offset + size heading)).head?.map (·.2) ↔
        ∀ entry ∈ listing.entries, ¬ entry.HidesKeyword) := by
  obtain ⟨declaration, families, hread, hfamilies, hnames, hstop⟩ :=
    exists_families hheading offset listing
  refine ⟨declaration, families, hread, hfamilies, hnames, hstop, ?_⟩
  rw [hnames, hstop]
  constructor
  · rintro ⟨heq, -⟩
    exact (listing.map_fst_names_eq_iff _).mp heq
  · intro hhidden
    rw [Listing.names_eq hhidden]
    exact ⟨rfl, rfl⟩

/-- The word `Noto`. -/
def Word.noto : Word :=
  ⟨'N', ['o', 't', 'o'], rfl, List.all_eq_true.mp (by decide), by simp [isBlank]⟩

/-- The word `Sans`. -/
def Word.sans : Word :=
  ⟨'S', ['a', 'n', 's'], rfl, List.all_eq_true.mp (by decide), by simp [isBlank]⟩

/-- The word `Emoji`, which is a generic family by itself. -/
def Word.emoji : Word :=
  ⟨'E', ['m', 'o', 'j', 'i'], rfl, List.all_eq_true.mp (by decide), by simp [isBlank]⟩

/-- The list `Emoji , Noto  Sans,"Noto Emoji"`, in which no keyword is hidden. -/
def Listing.sansAndEmoji : Listing :=
  ⟨1, .words .emoji [], [(1, 1, .words .noto [(1, .sans)]),
    (0, 0, .quoted "\"Noto Emoji\"".toList (.quoted rfl rfl))], 2⟩

/-- The list `Noto Emoji, Sans`. -/
def Listing.emojiAndSans : Listing :=
  ⟨0, .words .noto [(0, .emoji)], [(0, 1, .words .sans [])], 0⟩

/-- A keyword that stands alone is left out, and a string may hold one. -/
theorem families_of_listing_of_string :
    Declaration.Heading "font-family" "font-family:".toList ∧
      (∀ entry ∈ Listing.sansAndEmoji.entries, ¬ entry.HidesKeyword) ∧
      ∃ declaration families,
        Declaration.ofStatement?
          (.start "font-family: Emoji , Noto  Sans,\"Noto Emoji\"  ".toList) = .ok declaration ∧
        ofDeclaration? declaration = .ok families ∧
        families.names = ["Noto Sans", "Noto Emoji"] ∧ families.firstStop = some 31 := by
  have hheading : Declaration.Heading "font-family" "font-family:".toList :=
    Declaration.heading_word (by decide)
  obtain ⟨declaration, families, hread, hfamilies, -, -, hwhole⟩ :=
    families_of_listing hheading 0 .sansAndEmoji
  have hshown : ∀ entry ∈ Listing.sansAndEmoji.entries, ¬ entry.HidesKeyword := by
    decide +kernel
  have hentries : Listing.sansAndEmoji.names Entry.asOne? 12 =
      [("Noto Sans", 31), ("Noto Emoji", 44)] := by
    decide +kernel
  obtain ⟨hnames, hstop⟩ := hwhole.mpr hshown
  have hsize : 0 + size "font-family:".toList = 12 := rfl
  rw [hsize, hentries] at hnames hstop
  exact ⟨hheading, hshown, declaration, families, hread, hfamilies, hnames, hstop⟩

/-- A keyword among several words is missing in their name. -/
theorem keyword_missing_in_name :
    ¬ ∀ (heading : List Char), Declaration.Heading "font-family" heading →
      ∀ (offset : Nat) (listing : Listing),
        ∃ declaration families,
          Declaration.ofStatement? ⟨offset, heading ++ (listing.text ++ spaces listing.trail)⟩ =
            .ok declaration ∧
          ofDeclaration? declaration = .ok families ∧
          families.names = (listing.names Entry.asOne? (offset + size heading)).map (·.1) ∧
          families.firstStop =
            (listing.names Entry.asOne? (offset + size heading)).head?.map (·.2) := by
  intro hwhole
  have hheading : Declaration.Heading "font-family" "font-family:".toList :=
    Declaration.heading_word (by decide)
  obtain ⟨declaration, families, hread, hfamilies, hnames, -⟩ :=
    hwhole _ hheading 0 .emojiAndSans
  obtain ⟨declaration', families', hread', hfamilies', hnames', -⟩ :=
    exists_families hheading 0 .emojiAndSans
  cases hread.symm.trans hread'
  cases hfamilies.symm.trans hfamilies'
  have heq := (Listing.map_fst_names_eq_iff _ _).mp (hnames'.symm.trans hnames)
  exact heq _ (List.mem_cons_self ..) (by decide +kernel)

end WebFonts.Css.NamedFamilies
