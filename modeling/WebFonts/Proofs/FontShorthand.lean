import WebFonts.Proofs.FamilyEntries

/-!
# The families in a `font` shorthand

The value of `font` begins with tokens for the style, the variant, the weight and the width of a
font, goes on with its size and a line height behind a slash, and ends with a list of families.
`Shorthand` describes such values, and `families_of_shorthand` compares the families that are found
in one with those of the same list behind `font-family`.

`behindSize` takes the first component that can be a size for the size. The angle of `oblique` can
be one, and a function and a zero without a unit can not. What is then read beside the list, or
what is lost of it, does not matter exactly if it is `Silent`.
-/

namespace WebFonts.Css.NamedFamilies

open Component (bareAll)
open Text (sameIgnoringCase)

/-! ### What stands in a shorthand -/

/-- The keywords for the style, the variant, the weight and the width of a font. -/
def styleKeywords : List String :=
  ["normal", "italic", "oblique", "small-caps", "bold", "bolder", "lighter", "ultra-condensed",
    "extra-condensed", "condensed", "semi-condensed", "semi-expanded", "expanded",
    "extra-expanded", "ultra-expanded"]

/-- The units of angles. -/
def angleUnits : List String :=
  ["deg", "grad", "rad", "turn"]

/-- A token for the style, the variant, the weight or the width of a font. -/
inductive StyleToken : Component → Prop
  | keyword {span : Span} {name : String}
      (h : styleKeywords.any (sameIgnoringCase · name) = true) :
      StyleToken (.token span (.ident name))
  | number (span : Span) (digits : String) : StyleToken (.token span (.number digits))
  | function (span : Span) (name : String) (arguments : List Component) :
      StyleToken (.function span name arguments)

/-- Some such tokens. An angle may stand behind `oblique`. -/
inductive Styling : List Component → Prop
  | nil : Styling []
  | cons {component : Component} {components : List Component} (h : StyleToken component)
      (others : Styling components) : Styling (component :: components)
  | oblique {span span' : Span} {name digits unit : String} {components : List Component}
      (hname : sameIgnoringCase "oblique" name = true)
      (hunit : angleUnits.any (sameIgnoringCase · unit) = true) (others : Styling components) :
      Styling (.token span (.ident name) :: .token span' (.dimension digits unit) :: components)

theorem Styling.of_tokens {style : List Component} (h : ∀ component ∈ style, StyleToken component) :
    Styling style := by
  induction style with
  | nil => exact .nil
  | cons component style ih =>
    obtain ⟨hcomponent, hothers⟩ := List.forall_mem_cons.mp h
    exact .cons hcomponent (ih hothers)

/-- A size that is a token by itself. -/
inductive SizeToken : Component → Prop
  | dimension (span : Span) (digits unit : String) :
      SizeToken (.token span (.dimension digits unit))
  | percentage (span : Span) (digits : String) : SizeToken (.token span (.percentage digits))
  | keyword {span : Span} {name : String}
      (h : sizeKeywords.any (sameIgnoringCase · name) = true) :
      SizeToken (.token span (.ident name))

/-- A font size: such a token, a function, or a zero without a unit. -/
inductive FontSize : Component → Prop
  | token {component : Component} (h : SizeToken component) : FontSize component
  | function (span : Span) (name : String) (arguments : List Component) :
      FontSize (.function span name arguments)
  | zero (span : Span) {digits : String} (h : ∀ c ∈ digits.toList, c.isDigit = true → c = '0') :
      FontSize (.token span (.number digits))

/-- A slash with one component for the line height, or nothing. -/
inductive LineHeight : List Component → Prop
  | none : LineHeight []
  | given {slash height : Component} (hslash : isSlash slash = true)
      (hheight : isSlash height = false) : LineHeight [slash, height]

/-- The parts of a `font` shorthand, in their order. -/
structure Shorthand (style : List Component) (size : Component)
    (lineHeight families : List Component) : Prop where
  style : Styling style
  size : FontSize size
  lineHeight : LineHeight lineHeight
  families : families.head?.any isSlash = false

/-- A part of a value adds nothing to the families of the rest: no string and no word stands in it,
and the last generic family is not in it. -/
structure Silent (part rest : List Component) : Prop where
  nameless : ∀ component ∈ part, Nameless component
  generic : part.filterMap generic? = [] ∨ rest.filterMap generic? ≠ []

theorem Silent.nil (rest : List Component) : Silent [] rest :=
  ⟨List.forall_mem_nil _, .inl rfl⟩

/-- The same names and the same generic family, wherever the first name ends. -/
def Agree (found found' : NamedFamilies) : Prop :=
  found.names = found'.names ∧ found.generic = found'.generic

theorem Agree.symm {found found' : NamedFamilies} (h : found.Agree found') : found'.Agree found :=
  ⟨h.1.symm, h.2.symm⟩

theorem agree_congr {found found' found'' : NamedFamilies} (h : found'.Agree found'') :
    found.Agree found' ↔ found.Agree found'' := by
  rw [Agree, Agree, h.1, h.2]

/-! ### What is added in front of a list -/

/-- The names of a value are as long as its strings and words are. -/
theorem weight_namesOf (components : List Component) :
    weight (namesOf components) =
      weight (components.filterMap string?) + weight (components.filterMap word?) := by
  induction hlength : components.length using Nat.strong_induction_on generalizing components with
  | _ length ih =>
    have hentry {entry : List Component} (hnone : ∀ c ∈ entry, isComma c = false) :
        weight (namesOf entry) =
          weight (entry.filterMap string?) + weight (entry.filterMap word?) := by
      have hjoined : joinedWords? entry = join? (entry.filterMap word?) := rfl
      rw [namesOf_of_no_comma hnone, namesIn, weight_append, hjoined, weight_join?]
    rcases comma_cases components with hnone | ⟨front, comma, back, rfl, hcomma, hfront⟩
    · exact hentry hnone
    · have hlt : back.length < length := by
        rw [← hlength, List.length_append, List.length_cons]
        omega
      have hnameless : Nameless comma := by
        unfold isComma at hcomma
        split at hcomma
        · exact ⟨rfl, rfl⟩
        · cases hcomma
      rw [namesOf_append_comma hcomma, weight_append, hentry hfront, ih _ hlt back rfl,
        List.filterMap_append, List.filterMap_append, List.filterMap_cons_none hnameless.1,
        List.filterMap_cons_none hnameless.2, weight_append, weight_append]
      omega

theorem eq_nil_of_weight {names : List (String × Nat)} (h : weight names = 0) : names = [] := by
  cases names with
  | nil => rfl
  | cons name names =>
    rw [weight] at h
    omega

/-- What stands in front of a value changes its names exactly if there is a string or a word. -/
theorem map_fst_namesOf_append_iff (front back : List Component) :
    (namesOf (front ++ back)).map (·.1) = (namesOf back).map (·.1) ↔
      ∀ component ∈ front, Nameless component := by
  refine ⟨fun heq => ?_, fun h => by rw [namesOf_append_of_nameless h]⟩
  have hweight := weight_congr heq
  rw [weight_namesOf, weight_namesOf, List.filterMap_append, List.filterMap_append, weight_append,
    weight_append] at hweight
  have hstrings : front.filterMap string? = [] := eq_nil_of_weight (by omega)
  have hwords : front.filterMap word? = [] := eq_nil_of_weight (by omega)
  exact fun component hmem => ⟨List.filterMap_eq_nil_iff.mp hstrings component hmem,
    List.filterMap_eq_nil_iff.mp hwords component hmem⟩

theorem getLast?_append_eq_iff {α : Type} (front back : List α) :
    (front ++ back).getLast? = back.getLast? ↔ front = [] ∨ back ≠ [] := by
  cases back using List.reverseRecOn with
  | nil => simp
  | append_singleton back last => simp [← List.append_assoc]

/-- What stands in front of a value does not matter exactly if it is silent. -/
theorem agree_append_iff (front back : List Component) :
    (ofComponents (front ++ back)).Agree (ofComponents back) ↔ Silent front back := by
  have hnames : (ofComponents (front ++ back)).names = (ofComponents back).names ↔
      ∀ component ∈ front, Nameless component := map_fst_namesOf_append_iff front back
  have hgeneric : (ofComponents (front ++ back)).generic = (ofComponents back).generic ↔
      front.filterMap generic? = [] ∨ back.filterMap generic? ≠ [] := by
    rw [← getLast?_append_eq_iff, ← List.filterMap_append]
    rfl
  rw [Agree, hnames, hgeneric]
  exact ⟨fun h => ⟨h.1, h.2⟩, fun h => ⟨h.nameless, h.generic⟩⟩

/-! ### Where the size is taken to be -/

theorem behindSize_append_of_none {front : List Component} (h : ∀ c ∈ front, isSize c = false)
    (back : List Component) : behindSize (front ++ back) = behindSize back := by
  induction front with
  | nil => rfl
  | cons component front ih =>
    obtain ⟨hcomponent, hfront⟩ := List.forall_mem_cons.mp h
    rw [List.cons_append, behindSize_cons, hcomponent, ih hfront]
    rfl

/-- A list stays whole behind a size that stands in front of it. -/
theorem behindSize_append_of_isSize {front back : List Component} (h : ∃ c ∈ front, isSize c = true)
    (hfront : front.getLast?.any isSlash = false) (hback : back.head?.any isSlash = false) :
    behindSize (front ++ back) = behindSize front ++ back := by
  induction front with
  | nil => simp at h
  | cons component front ih =>
    rw [List.cons_append, behindSize_cons, behindSize_cons]
    cases hcomponent : isSize component with
    | true =>
      simp only [if_true]
      cases front with
      | nil => simp [hback]
      | cons second front =>
        cases hslash : isSlash second with
        | false => simp [hslash]
        | true =>
          -- the slash is not the last component, so that the line height is not of the list
          cases front with
          | nil => simp [hslash] at hfront
          | cons third front => simp [hslash]
    | false =>
      have hothers : ∃ c ∈ front, isSize c = true := by
        simpa [hcomponent] using h
      have hlast : front.getLast?.any isSlash = false := by
        cases front with
        | nil => rfl
        | cons second front => rwa [List.getLast?_cons_cons] at hfront
      simpa using ih hothers hlast

theorem FontSize.isSlash_eq {component : Component} (h : FontSize component) :
    isSlash component = false := by
  cases h with
  | token h => cases h <;> rfl
  | function => rfl
  | zero => rfl

theorem SizeToken.isSize_eq {component : Component} (h : SizeToken component) :
    isSize component = true := by
  cases h with
  | dimension => rfl
  | percentage => rfl
  | keyword h => exact h

/-- No keyword for the style of a font is one for its size. -/
theorem not_any_sizeKeywords {name : String}
    (h : styleKeywords.any (sameIgnoringCase · name) = true) :
    sizeKeywords.any (sameIgnoringCase · name) = false := by
  have hlower : ∀ keyword ∈ styleKeywords ++ sizeKeywords, Text.lower keyword = keyword := by
    decide +kernel
  have hdistinct : ∀ keyword ∈ styleKeywords, keyword ∉ sizeKeywords := by
    decide
  obtain ⟨keyword, hkeyword, hname⟩ := List.any_eq_true.mp h
  rw [Text.sameIgnoringCase_iff, hlower keyword (List.mem_append_left _ hkeyword)] at hname
  rw [List.any_eq_false]
  intro other hother hsame
  rw [Text.sameIgnoringCase_iff, hlower other (List.mem_append_right _ hother), ← hname] at hsame
  exact hdistinct keyword hkeyword (hsame ▸ hother)

theorem StyleToken.isSize_eq {component : Component} (h : StyleToken component) :
    isSize component = false := by
  cases h with
  | keyword h => exact not_any_sizeKeywords h
  | number => rfl
  | function => rfl

theorem getLast?_shorthand {size : Component} {lineHeight : List Component} (hsize : FontSize size)
    (h : LineHeight lineHeight) (style : List Component) :
    (style ++ size :: lineHeight).getLast?.any isSlash = false := by
  cases h with
  | none => simp [hsize.isSlash_eq]
  | given hslash hheight => simp [hheight]

/-- Nothing of a shorthand is left in front of its families if no angle stands in it and its size
is a token. -/
theorem behindSize_of_sizeToken {style lineHeight : List Component} {size : Component}
    (hstyle : ∀ component ∈ style, StyleToken component) (hsize : SizeToken size)
    (h : LineHeight lineHeight) : behindSize (style ++ size :: lineHeight) = [] := by
  rw [behindSize_append_of_none fun component hmem => (hstyle component hmem).isSize_eq,
    behindSize_cons, hsize.isSize_eq]
  cases h with
  | none => rfl
  | given hslash hheight => simp [hslash]

/-! ### The families of a shorthand -/

section Shorthand

variable {style lineHeight families : List Component} {size : Component}
  (h : Shorthand style size lineHeight families)

include h

/-- The whole list is read if something in front of it is taken for the size. -/
theorem behindSize_shorthand (hsome : ∃ c ∈ style ++ size :: lineHeight, isSize c = true) :
    behindSize (style ++ size :: lineHeight ++ families) =
      behindSize (style ++ size :: lineHeight) ++ families :=
  behindSize_append_of_isSize hsome (getLast?_shorthand h.size h.lineHeight style) h.families

/-- The families of a `font` shorthand and those of its list of families behind `font-family`. They
are the same if no angle stands in the shorthand and its size is a dimension, a percentage or a
keyword. In general, where something in front of the list is taken for the size, they are the same
exactly if what is read behind it and in front of the list is silent; where nothing is, they are the
same exactly if what is lost of the list is silent. -/
theorem families_of_shorthand {declaration declaration' : Declaration}
    {families' : List Component} (hfont : declaration.property = "font")
    (hvalue : declaration.value = .components (style ++ size :: lineHeight ++ families))
    (hfamily : declaration'.property = "font-family")
    (hvalue' : declaration'.value = .components families')
    (hbare : bareAll families' = bareAll families) :
    ∃ found found', ofDeclaration? declaration = .ok found ∧
      ofDeclaration? declaration' = .ok found' ∧
      ((∀ component ∈ style, StyleToken component) → SizeToken size → found.Agree found') ∧
      ((∃ component ∈ style ++ size :: lineHeight, isSize component = true) →
        (found.Agree found' ↔ Silent (behindSize (style ++ size :: lineHeight)) families)) ∧
      ((∀ component ∈ style ++ size :: lineHeight, isSize component = false) →
        ∃ lost, families = lost ++ behindSize families ∧
          (found.Agree found' ↔ Silent lost (behindSize families))) := by
  have hlist : (ofValue "font-family" families').Agree (ofComponents families) :=
    ofValue_of_bare "font-family" hbare
  have hsized : (∃ component ∈ style ++ size :: lineHeight, isSize component = true) →
      ((ofComponents (behindSize (style ++ size :: lineHeight ++ families))).Agree
        (ofValue "font-family" families') ↔
          Silent (behindSize (style ++ size :: lineHeight)) families) := by
    intro hsome
    rw [agree_congr hlist, behindSize_shorthand h hsome]
    exact agree_append_iff _ _
  refine ⟨ofComponents (behindSize (style ++ size :: lineHeight ++ families)),
    ofValue "font-family" families', ?_, ?_, ?_, hsized, ?_⟩
  · rw [ofDeclaration?, hvalue, hfont]
    rfl
  · rw [ofDeclaration?, hvalue', hfamily]
  · intro hstyle hsize
    rw [hsized ⟨size, by simp, hsize.isSize_eq⟩, behindSize_of_sizeToken hstyle hsize h.lineHeight]
    exact .nil families
  · intro hnone
    obtain ⟨lost, hlost⟩ := behindSize_suffix families
    refine ⟨lost, hlost.symm, ?_⟩
    rw [behindSize_append_of_none hnone, agree_congr hlist, ← agree_append_iff, hlost]
    exact ⟨Agree.symm, Agree.symm⟩

end Shorthand

/-- The tokens `Italic 700` at an offset. -/
def italic (offset : Nat) : List Component :=
  [.token ⟨offset, offset + 6⟩ (.ident "Italic"),
    .token ⟨offset + 7, offset + 10⟩ (.number "700")]

/-- The list `"Foo Sans",serif` at an offset. -/
def fooSans (offset : Nat) : List Component :=
  [.token ⟨offset, offset + 10⟩ (.string "Foo Sans"),
    .token ⟨offset + 10, offset + 11⟩ .comma,
    .token ⟨offset + 11, offset + 16⟩ (.ident "serif")]

/-- The families of `font:Italic 700 12px/1.5 "Foo Sans",serif`. -/
theorem families_of_shorthand_of_height :
    Shorthand (italic 5) (.token ⟨16, 20⟩ (.dimension "12" "px"))
        [.token ⟨20, 21⟩ .slash, .token ⟨21, 24⟩ (.number "1.5")] (fooSans 25) ∧
      bareAll (fooSans 12) = bareAll (fooSans 25) ∧
      ∃ found found',
        ofDeclaration? ⟨"font", .components (italic 5 ++ .token ⟨16, 20⟩ (.dimension "12" "px") ::
            [.token ⟨20, 21⟩ .slash, .token ⟨21, 24⟩ (.number "1.5")] ++ fooSans 25),
          false, ⟨0, 41⟩⟩ = .ok found ∧
        ofDeclaration? ⟨"font-family", .components (fooSans 12), false, ⟨0, 28⟩⟩ = .ok found' ∧
        found.Agree found' ∧ found.names = ["Foo Sans"] ∧ found.generic = some .serif := by
  have hitalic : sameIgnoringCase "italic" "Italic" = true := by
    simp [sameIgnoringCase, Text.lower, ← String.toList_inj]
  have hkeyword : styleKeywords.any (sameIgnoringCase · "Italic") = true :=
    List.any_eq_true.mpr ⟨"italic", by decide, hitalic⟩
  have hstyle : ∀ component ∈ italic 5, StyleToken component :=
    List.forall_mem_cons.mpr ⟨.keyword hkeyword, List.forall_mem_singleton.mpr (.number _ _)⟩
  have hshorthand : Shorthand (italic 5) (.token ⟨16, 20⟩ (.dimension "12" "px"))
      [.token ⟨20, 21⟩ .slash, .token ⟨21, 24⟩ (.number "1.5")] (fooSans 25) :=
    ⟨.of_tokens hstyle, .token (.dimension _ _ _), .given rfl rfl, rfl⟩
  have hbare : bareAll (fooSans 12) = bareAll (fooSans 25) := rfl
  let declaration : Declaration :=
    ⟨"font", .components (italic 5 ++ .token ⟨16, 20⟩ (.dimension "12" "px") ::
      [.token ⟨20, 21⟩ .slash, .token ⟨21, 24⟩ (.number "1.5")] ++ fooSans 25), false, ⟨0, 41⟩⟩
  let declaration' : Declaration := ⟨"font-family", .components (fooSans 12), false, ⟨0, 28⟩⟩
  have hfont : declaration.property = "font" := rfl
  have hfamily : declaration'.property = "font-family" := rfl
  obtain ⟨found, found', hfound, hfound', hagree, -⟩ :=
    families_of_shorthand hshorthand hfont rfl hfamily rfl hbare
  have hsame := hagree hstyle (.dimension _ _ _)
  refine ⟨hshorthand, hbare, found, found', hfound, hfound', hsame, ?_⟩
  rw [hsame.1, hsame.2]
  cases hfound'
  exact ⟨by decide +kernel, by decide +kernel⟩

/-- The families of `font:calc(1em + 2px) Foo` are lost. -/
theorem size_missed_in_shorthand :
    ¬ ∀ (style lineHeight families families' : List Component) (size : Component)
      (declaration declaration' : Declaration),
      Shorthand style size lineHeight families → declaration.property = "font" →
      declaration.value = .components (style ++ size :: lineHeight ++ families) →
      declaration'.property = "font-family" → declaration'.value = .components families' →
      bareAll families' = bareAll families →
      ∃ found found', ofDeclaration? declaration = .ok found ∧
        ofDeclaration? declaration' = .ok found' ∧ found.Agree found' := by
  intro hall
  obtain ⟨found, found', hfound, hfound', hnames, -⟩ := hall [] []
    [.token ⟨23, 26⟩ (.ident "Foo")] [.token ⟨14, 17⟩ (.ident "Foo")]
    (.function ⟨7, 22⟩ "calc" [.token ⟨12, 15⟩ (.dimension "1" "em"),
      .token ⟨16, 17⟩ (.delim '+'), .token ⟨18, 21⟩ (.dimension "2" "px")])
    ⟨"font", .components _, false, ⟨2, 26⟩⟩ ⟨"font-family", .components _, false, ⟨2, 17⟩⟩
    ⟨.nil, .function _ _ _, .none, rfl⟩ rfl rfl rfl rfl rfl
  cases hfound
  cases hfound'
  revert hnames
  decide +kernel

end WebFonts.Css.NamedFamilies
