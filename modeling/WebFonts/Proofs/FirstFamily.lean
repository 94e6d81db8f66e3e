import WebFonts.Proofs.SpliceOffsets
import WebFonts.Proofs.Spliced

/-!
# The first family of a declaration stays the first

Names that are listed behind the last token of the first family begin new entries, so that this
family stays the first one (`NamedFamilies.primary_insert`). The families of a declaration do not
depend on its spans otherwise (`NamedFamilies.ofDeclaration?_of_bare`).
-/

namespace WebFonts.Css

open Component (bareAll listed)

namespace NamedFamilies

/-! ### The names in a list of entries -/

/-- The names in all entries of a list, each with its end. -/
def namesOf (components : List Component) : List (String × Nat) :=
  (components.splitOnP isComma).flatMap namesIn

theorem namesOf_of_no_comma {entry : List Component}
    (h : ∀ component ∈ entry, isComma component = false) :
    namesOf entry = namesIn entry := by
  rw [namesOf, List.splitOnP_eq_singleton fun component hmem => by simp [h component hmem]]
  exact List.flatMap_singleton ..

theorem namesOf_append_comma {comma : Component} (h : isComma comma = true)
    (front back : List Component) :
    namesOf (front ++ comma :: back) = namesOf front ++ namesOf back := by
  rw [namesOf, List.splitOnP_append_cons front back h, List.flatMap_append]
  rfl

theorem exists_of_namesOf {components : List Component} {name : String} {stop : Nat}
    (h : (name, stop) ∈ namesOf components) :
    ∃ component ∈ components, component.span.stop = stop := by
  obtain ⟨entry, hentry, hname⟩ := List.mem_flatMap.mp h
  obtain ⟨span, leaf, hmem, -, hstop⟩ := exists_of_namesIn hname
  exact ⟨_, mem_of_mem_splitOnP hentry hmem, hstop⟩

/-- Components are entries without commas, or end an entry somewhere. -/
theorem comma_cases (components : List Component) :
    (∀ component ∈ components, isComma component = false) ∨
      ∃ front comma back, components = front ++ comma :: back ∧ isComma comma = true ∧
        ∀ component ∈ front, isComma component = false := by
  induction components with
  | nil => exact .inl nofun
  | cons component components ih =>
    cases hcomma : isComma component with
    | true => exact .inr ⟨[], component, components, rfl, hcomma, nofun⟩
    | false =>
      rcases ih with hall | ⟨front, comma, back, rfl, hback, hfront⟩
      · exact .inl (List.forall_mem_cons.mpr ⟨hcomma, hall⟩)
      · exact .inr ⟨component :: front, comma, back, rfl, hback,
          List.forall_mem_cons.mpr ⟨hcomma, hfront⟩⟩

/-- A component that is no string and no word. -/
def Nameless (component : Component) : Prop :=
  string? component = none ∧ word? component = none

theorem namesIn_cons_of_nameless {component : Component} (h : Nameless component)
    (entry : List Component) : namesIn (component :: entry) = namesIn entry := by
  obtain ⟨hstring, hword⟩ := h
  rw [namesIn, joinedWords?, List.filterMap_cons_none hstring, List.filterMap_cons_none hword]
  rfl

theorem namesOf_cons_of_nameless {component : Component} (h : Nameless component)
    (components : List Component) : namesOf (component :: components) = namesOf components := by
  cases hcomponent : isComma component with
  | true => exact namesOf_append_comma hcomponent [] components
  | false =>
    have hentry {entry : List Component} (hnone : ∀ other ∈ entry, isComma other = false) :
        namesOf (component :: entry) = namesOf entry := by
      rw [namesOf_of_no_comma hnone,
        namesOf_of_no_comma (List.forall_mem_cons.mpr ⟨hcomponent, hnone⟩),
        namesIn_cons_of_nameless h]
    rcases comma_cases components with hnone | ⟨front, comma, back, rfl, hcomma, hnone⟩
    · exact hentry hnone
    · rw [← List.cons_append, namesOf_append_comma hcomma, namesOf_append_comma hcomma,
        hentry hnone]

/-- Where no string and no word stands, there is no name. -/
theorem namesOf_append_of_nameless {front : List Component} (h : ∀ c ∈ front, Nameless c)
    (back : List Component) : namesOf (front ++ back) = namesOf back := by
  induction front with
  | nil => rfl
  | cons component front ih =>
    obtain ⟨hcomponent, hfront⟩ := List.forall_mem_cons.mp h
    rw [List.cons_append, namesOf_cons_of_nameless hcomponent, ih hfront]

theorem span_stop_of_string? {component : Component} {text : String} {stop : Nat}
    (h : string? component = some (text, stop)) : component.span.stop = stop := by
  unfold string? at h
  split at h <;> cases h
  rfl

theorem span_stop_of_word? {component : Component} {word : String} {stop : Nat}
    (h : word? component = some (word, stop)) : component.span.stop = stop := by
  unfold word? at h
  split at h
  · split at h <;> cases h
    rfl
  · cases h

theorem eq_nil_of_head? {α : Type} {front back : List α} {a : α}
    (h : (front ++ back).head? = some a) (hnot : a ∉ front) : front = [] := by
  cases front with
  | nil => rfl
  | cons b front =>
    rw [List.cons_append, List.head?_cons, Option.some.injEq] at h
    exact absurd (h ▸ List.mem_cons_self ..) hnot

section First

variable {front back : List Component} {token : Component} {name : String}
  (hapart : ∀ component ∈ front ++ back, component.span.stop ≠ token.span.stop)

include hapart

/-- In one entry, a name that comes first and ends with a token does not depend on what stands
behind the token. -/
theorem head?_namesIn_of_stop
    (h : (namesIn (front ++ token :: back)).head? = some (name, token.span.stop)) :
    (namesIn (front ++ [token])).head? = some (name, token.span.stop) := by
  have hstring : ∀ components ⊆ front ++ back,
      (name, token.span.stop) ∉ components.filterMap string? := by
    intro components hsub hmem
    obtain ⟨component, hcomponent, heq⟩ := List.mem_filterMap.mp hmem
    exact hapart component (hsub hcomponent) (span_stop_of_string? heq)
  rw [namesIn, List.filterMap_append, List.append_assoc] at h
  have hfront := eq_nil_of_head? h (hstring front (List.subset_append_left ..))
  rw [hfront, List.nil_append] at h
  rw [namesIn, List.filterMap_append, hfront, List.nil_append]
  cases htoken : string? token with
  | some text =>
    rw [List.filterMap_cons_some htoken] at h ⊢
    exact h
  | none =>
    rw [List.filterMap_cons_none htoken] at h ⊢
    have hback := eq_nil_of_head? h (hstring back (List.subset_append_right ..))
    rw [hback, List.nil_append] at h
    -- the name is made of words, and no word stands behind the token
    have hsplit : (front ++ token :: back).filterMap word? =
        (front ++ [token]).filterMap word? ++ back.filterMap word? := by
      rw [← List.filterMap_append, List.append_assoc, List.singleton_append]
    have hwords : back.filterMap word? = [] := by
      by_contra hne
      obtain ⟨before, ⟨word, stop⟩, hlast⟩ := (List.eq_nil_or_concat _).resolve_left hne
      have hmem : (word, stop) ∈ back.filterMap word? := by rw [hlast]; simp
      rw [Option.head?_toList, joinedWords?, hsplit, hlast, List.concat_eq_append,
        ← List.append_assoc, List.getLast?_concat] at h
      obtain ⟨component, hcomponent, heq⟩ := List.mem_filterMap.mp hmem
      cases h
      exact hapart component (List.mem_append_right front hcomponent) (span_stop_of_word? heq)
    have hjoined : joinedWords? (front ++ [token]) = joinedWords? (front ++ token :: back) := by
      rw [joinedWords?, joinedWords?, hsplit, hwords, List.append_nil]
    rw [hjoined]
    exact h

/-- A name that comes first and ends with a token does not depend on what stands behind the
token. -/
theorem head?_namesOf_of_stop (hcomma : isComma token = false)
    (h : (namesOf (front ++ token :: back)).head? = some (name, token.span.stop)) :
    (namesOf (front ++ [token])).head? = some (name, token.span.stop) := by
  have hnot : ∀ components ⊆ front ++ back, (name, token.span.stop) ∉ namesOf components := by
    intro components hsub hmem
    obtain ⟨component, hcomponent, heq⟩ := exists_of_namesOf hmem
    exact hapart component (hsub hcomponent) heq
  induction hlength : front.length using Nat.strong_induction_on generalizing front with
  | _ length ih =>
    rcases comma_cases front with hfront | ⟨entry, comma, front, rfl, hisComma, hentry⟩
    · -- the token stands in the first entry
      have hends : ∀ component ∈ front ++ [token], isComma component = false := by
        simpa [or_imp, forall_and, hcomma] using hfront
      rw [namesOf_of_no_comma hends]
      rcases comma_cases back with hback | ⟨rest, comma, others, rfl, hisComma, hrest⟩
      · rw [namesOf_of_no_comma (by simpa [or_imp, forall_and, hcomma] using ⟨hfront, hback⟩)] at h
        exact head?_namesIn_of_stop hapart h
      · have hno : ∀ component ∈ front ++ token :: rest, isComma component = false := by
          simpa [or_imp, forall_and, hcomma] using ⟨hfront, hrest⟩
        rw [← List.cons_append, ← List.append_assoc, namesOf_append_comma hisComma,
          namesOf_of_no_comma hno] at h
        have hentry : (namesIn (front ++ token :: rest)).head? = some (name, token.span.stop) := by
          cases hnames : namesIn (front ++ token :: rest) with
          | nil =>
            rw [hnames, List.nil_append] at h
            refine absurd (List.mem_of_head? h) (hnot others fun component hmem => ?_)
            exact List.mem_append_right front
              (List.mem_append_right rest (List.mem_cons_of_mem comma hmem))
          | cons first names =>
            rw [hnames] at h
            exact h
        refine head?_namesIn_of_stop (fun component hmem => hapart component ?_) hentry
        grind
    · -- the entries before it hold no name
      rw [List.append_assoc, List.cons_append, namesOf_append_comma hisComma] at h ⊢
      have hnone := eq_nil_of_head? h (hnot entry (by grind))
      rw [hnone, List.nil_append] at h ⊢
      have hlt : front.length < length := by
        rw [← hlength, List.length_append, List.length_cons]
        omega
      exact ih _ hlt (fun component hmem => hapart component (by grind)) h
        (fun components hsub => hnot components (by grind)) rfl

end First

/-! ### The shorthand -/

/-- Whether a component is a slash. -/
def isSlash : Component → Bool
  | .token _ .slash => true
  | _ => false

theorem behindSize_cons (component : Component) (components : List Component) :
    behindSize (component :: components) =
      if isSize component then
        if components.head?.any isSlash then components.drop 2 else components
      else behindSize components := by
  unfold behindSize
  rw [List.dropWhile_cons]
  cases hsize : isSize component with
  | false => simp
  | true =>
    simp only [Bool.not_true, Bool.false_eq_true, if_false, if_true]
    split
    · rename_i heq
      obtain ⟨-, rfl⟩ := List.cons.inj heq
      rfl
    · rename_i hslash heq
      obtain ⟨rfl, rfl⟩ := List.cons.inj heq
      rw [if_neg]
      intro hany
      cases components with
      | nil => cases hany
      | cons second others =>
        rw [List.head?_cons, Option.any_some, isSlash.eq_def] at hany
        split at hany
        · exact hslash _ _ rfl
        · cases hany
    · contradiction

theorem length_behindSize_le (component : Component) (components : List Component) :
    (behindSize (component :: components)).length ≤ components.length := by
  rw [behindSize_cons]
  split
  · split
    · rw [List.length_drop]
      omega
    · exact Nat.le_refl _
  · exact (behindSize_suffix components).length_le

/-- The components behind the font size can be replaced by others that begin in the same way. -/
theorem behindSize_append {front back back' : List Component}
    (h : behindSize (front ++ back) = back) (hne : back ≠ []) (hhead : back.head? = back'.head?) :
    behindSize (front ++ back') = back' := by
  induction front with
  | nil =>
    obtain ⟨component, components, rfl⟩ := List.exists_cons_of_ne_nil hne
    have hle := length_behindSize_le component components
    rw [List.nil_append] at h
    rw [h, List.length_cons] at hle
    omega
  | cons component front ih =>
    rw [List.cons_append, behindSize_cons] at h ⊢
    split at h
    · rename_i hsize
      rw [if_pos hsize]
      cases front with
      | nil =>
        rw [List.nil_append] at h ⊢
        rw [← hhead]
        split at h
        · have := List.length_pos_of_ne_nil hne
          have := congrArg List.length h
          rw [List.length_drop] at this
          omega
        · rename_i hslash
          rw [if_neg hslash]
      | cons second front =>
        rw [List.cons_append, List.head?_cons] at h ⊢
        split at h
        · rename_i hslash
          have hfront : front.length = 1 := by
            have := List.length_pos_of_ne_nil hne
            have := congrArg List.length h
            simp only [List.length_drop, List.length_cons, List.length_append] at this
            omega
          obtain ⟨third, rfl⟩ := List.length_eq_one_iff.mp hfront
          rw [if_pos hslash]
          rfl
        · have := congrArg List.length h
          simp only [List.length_cons, List.length_append] at this
          omega
    · rename_i hsize
      rw [if_neg hsize]
      exact ih h

/-! ### Names behind the first family -/

section Insert

variable {front back : List Component} {token : Component} {property : String}
  (hapart : ∀ component ∈ front ++ back, component.span.stop ≠ token.span.stop)
  (hcomma : isComma token = false)

include hapart

/-- The entries of a value begin in front of the token with which the first family ends, whatever
stands behind this token. -/
theorem exists_entries
    (h : (ofValue property (front ++ token :: back)).firstStop = some token.span.stop) :
    ∃ before entries, front = before ++ entries ∧ ∀ back', back'.head? = some token →
      ofValue property (before ++ (entries ++ back')) = ofComponents (entries ++ back') := by
  unfold ofValue at h ⊢
  split at h
  · rename_i hfont
    obtain ⟨before, hsuffix⟩ := behindSize_suffix (front ++ token :: back)
    generalize hbehind : behindSize (front ++ token :: back) = behind at h hsuffix
    obtain ⟨⟨name, stop⟩, hhead, heq⟩ := Option.map_eq_some_iff.mp h
    obtain ⟨component, hmem, hstop⟩ := exists_of_namesOf (List.mem_of_head? hhead)
    -- the token is among the components behind the size
    have hentries : ∃ entries, front = before ++ entries ∧ behind = entries ++ token :: back := by
      rcases List.append_eq_append_iff.mp hsuffix with
        ⟨entries, hfront, htail⟩ | ⟨rest, hbefore, hrest⟩
      · exact ⟨entries, hfront, htail⟩
      · cases rest with
        | nil => exact ⟨[], by rw [hbefore]; simp, hrest.symm⟩
        | cons first rest =>
          obtain ⟨-, rfl⟩ := List.cons.inj hrest
          exact absurd (hstop.trans heq) (hapart component (by grind))
    obtain ⟨entries, rfl, rfl⟩ := hentries
    refine ⟨before, entries, rfl, fun back' hback' => ?_⟩
    rw [if_pos hfont]
    rw [List.append_assoc] at hbehind
    have hhead : (entries ++ token :: back).head? = (entries ++ back').head? := by
      rw [List.head?_append, List.head?_append, hback', List.head?_cons]
    rw [behindSize_append hbehind (by simp) hhead]
  · rename_i hfont
    refine ⟨[], front, rfl, fun back' _ => ?_⟩
    rw [if_neg hfont, List.nil_append]

include hcomma

/-- A list that begins with a comma can be put behind the token with which the first family ends. -/
theorem primary_insert {comma : Component} {added : List Component} (hadded : isComma comma = true)
    (h : (ofValue property (front ++ token :: back)).firstStop = some token.span.stop) :
    (ofValue property (front ++ token :: (comma :: added ++ back))).primary =
      (ofValue property (front ++ token :: back)).primary := by
  obtain ⟨before, entries, rfl, hentries⟩ := exists_entries hapart h
  rw [List.append_assoc, hentries _ rfl] at h ⊢
  rw [List.append_assoc, hentries _ rfl]
  obtain ⟨⟨name, stop⟩, hhead, rfl⟩ := Option.map_eq_some_iff.mp h
  have hkept :=
    head?_namesOf_of_stop (fun component hmem => hapart component (by grind)) hcomma hhead
  have hsplit : entries ++ token :: (comma :: added ++ back) =
      (entries ++ [token]) ++ comma :: (added ++ back) := by simp
  have hfirst : (namesOf (entries ++ token :: (comma :: added ++ back))).head? =
      some (name, token.span.stop) := by
    rw [hsplit, namesOf_append_comma hadded, List.head?_append, hkept]
    rfl
  have hprimary (components : List Component) :
      (ofComponents components).primary = (namesOf components).head?.map (·.1) := List.head?_map
  rw [hprimary, hprimary, hfirst]
  exact (congrArg _ hhead).symm

end Insert

/-! ### Spans do not matter -/

theorem bareAll_eq_map (components : List Component) :
    bareAll components = components.map Component.bare := by
  induction components with
  | nil => rfl
  | cons component components ih => rw [Component.bareAll, ih, List.map_cons]

theorem isComma_bare (component : Component) : isComma component.bare = isComma component := by
  cases component with
  | token span leaf => cases leaf <;> rfl
  | function span name arguments => rfl

theorem isSlash_bare (component : Component) : isSlash component.bare = isSlash component := by
  cases component with
  | token span leaf => cases leaf <;> rfl
  | function span name arguments => rfl

theorem isSize_bare (component : Component) : isSize component.bare = isSize component := by
  cases component with
  | token span leaf => cases leaf <;> rfl
  | function span name arguments => rfl

theorem generic?_bare (component : Component) : generic? component.bare = generic? component := by
  cases component with
  | token span leaf => cases leaf <;> rfl
  | function span name arguments => rfl

theorem behindSize_bare (components : List Component) :
    behindSize (bareAll components) = bareAll (behindSize components) := by
  rw [bareAll_eq_map, bareAll_eq_map]
  induction components with
  | nil => rfl
  | cons component components ih =>
    rw [List.map_cons, behindSize_cons, behindSize_cons, isSize_bare, ih, List.head?_map]
    split
    · have hslash : (components.head?.map Component.bare).any isSlash =
          components.head?.any isSlash := by
        cases components with
        | nil => rfl
        | cons second others => exact isSlash_bare second
      rw [hslash]
      split
      · rw [List.map_drop]
      · rfl
    · rfl

theorem fst_string?_bare (component : Component) :
    (string? component.bare).map (·.1) = (string? component).map (·.1) := by
  cases component with
  | token span leaf => cases leaf <;> rfl
  | function span name arguments => rfl

theorem fst_word?_bare (component : Component) :
    (word? component.bare).map (·.1) = (word? component).map (·.1) := by
  cases component with
  | token span leaf =>
    cases leaf with
    | ident name =>
      simp only [Component.bare, word?]
      split <;> rfl
    | _ => rfl
  | function span name arguments => rfl

theorem fst_joinedWords? (entry : List Component) :
    (joinedWords? entry).map (·.1) =
      ((entry.filterMap word?).map (·.1)).getLast?.map fun _ =>
        " ".intercalate ((entry.filterMap word?).map (·.1)) := by
  rw [joinedWords?, List.getLast?_map, Option.map_map, Option.map_map]
  rfl

theorem fst_namesIn_bare (entry : List Component) :
    (namesIn (entry.map Component.bare)).map (·.1) = (namesIn entry).map (·.1) := by
  have hstrings : ((entry.map Component.bare).filterMap string?).map (·.1) =
      (entry.filterMap string?).map (·.1) := by
    rw [List.map_filterMap, List.map_filterMap, List.filterMap_map]
    exact congrArg (List.filterMap · entry) (funext fst_string?_bare)
  have hwords : ((entry.map Component.bare).filterMap word?).map (·.1) =
      (entry.filterMap word?).map (·.1) := by
    rw [List.map_filterMap, List.map_filterMap, List.filterMap_map]
    exact congrArg (List.filterMap · entry) (funext fst_word?_bare)
  rw [namesIn, namesIn, List.map_append, List.map_append, hstrings, ← Option.toList_map,
    ← Option.toList_map, fst_joinedWords?, fst_joinedWords?, hwords]

theorem splitOnP_bare (components : List Component) :
    (components.map Component.bare).splitOnP isComma =
      (components.splitOnP isComma).map (List.map Component.bare) := by
  induction components with
  | nil => rfl
  | cons component components ih =>
    rw [List.map_cons, List.splitOnP_cons_eq_if_modifyHead, List.splitOnP_cons_eq_if_modifyHead,
      isComma_bare, ih]
    split
    · rfl
    · cases components.splitOnP isComma <;> rfl

/-- The families of a value are the same without spans. -/
theorem ofValue_bare (property : String) (components : List Component) :
    (ofValue property (bareAll components)).names = (ofValue property components).names ∧
      (ofValue property (bareAll components)).generic = (ofValue property components).generic := by
  have hof (components : List Component) :
      (ofComponents (bareAll components)).names = (ofComponents components).names ∧
        (ofComponents (bareAll components)).generic = (ofComponents components).generic := by
    rw [bareAll_eq_map]
    constructor
    · simp only [ofComponents, splitOnP_bare, List.flatMap_map, List.map_flatMap, fst_namesIn_bare]
    · simp only [ofComponents, List.filterMap_map, Function.comp_def, generic?_bare]
  unfold ofValue
  split
  · rw [behindSize_bare]
    exact hof _
  · exact hof _

/-- The families of values that differ in spans only are the same. -/
theorem ofValue_of_bare (property : String) {components components' : List Component}
    (h : bareAll components' = bareAll components) :
    (ofValue property components').names = (ofValue property components).names ∧
      (ofValue property components').generic = (ofValue property components).generic := by
  obtain ⟨hnames, hgeneric⟩ := ofValue_bare property components
  obtain ⟨hnames', hgeneric'⟩ := ofValue_bare property components'
  rw [h] at hnames' hgeneric'
  exact ⟨hnames'.symm.trans hnames, hgeneric'.symm.trans hgeneric⟩

/-- The families of a declaration are those of every declaration that differs in spans only. -/
theorem ofDeclaration?_of_bare {declaration declaration' : Declaration} {families : NamedFamilies}
    (hbare : declaration'.bare = declaration.bare)
    (h : ofDeclaration? declaration = .ok families) :
    ∃ families', ofDeclaration? declaration' = .ok families' ∧ families'.names = families.names ∧
      families'.generic = families.generic := by
  obtain ⟨property, value, important, span⟩ := declaration
  obtain ⟨property', value', important', span'⟩ := declaration'
  simp only [Declaration.bare, Declaration.splice, Declaration.mk.injEq] at hbare
  obtain ⟨rfl, hvalue, -, -⟩ := hbare
  cases value with
  | components all =>
    cases value' with
    | components all' =>
      cases h
      have hall : bareAll all' = bareAll all := by
        have := Value.bare_components all'
        have := Value.bare_components all
        simp_all [Value.bare]
      exact ⟨_, rfl, ofValue_of_bare property' hall⟩
    | raw text => cases hvalue
  | raw text =>
    cases value' with
    | components all' => cases hvalue
    | raw text' =>
      have htext : text'.text = text.text := by
        have hbare := congrArg Raw.text (Value.raw.inj hvalue)
        exact hbare
      unfold ofDeclaration? at h ⊢
      dsimp only at h ⊢
      rw [htext]
      exact ⟨families, h, rfl, rfl⟩

end NamedFamilies

end WebFonts.Css
