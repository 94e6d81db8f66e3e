import WebFonts.Proofs.Shifting
import WebFonts.Proofs.Tiling
import WebFonts.Proofs.Values

/-!
# Components tile a value and stand alone

`Component.tiling_of_ofText?`: the components of a value cover its text up to trivia, the arguments
of a function cover the text between its parentheses in the same way, and the text of every
component, at any depth, is read as this component when nothing else is there.

That the components tile the text follows the reading of the value step by step (`Reading.tiling`).
That they stand alone is `Reading.recut` and its parts with nothing left behind the component
(`Reading.token_alone`, `Reading.function_alone`): no piece looks beyond its own text in a way that
the end of the text does not answer likewise. What is read alone begins at zero, and
`readAll_at` takes its spans back to where the component stands.
-/

namespace WebFonts.Css.Component

open Text (size lower)
open Cursor (Reads)

/-! ### Placed components -/

/-- The text at the span of a component is read as this component alone, with spans from zero. -/
def StandsAlone (source : String) (component : Component) : Prop :=
  ∃ text alone, component.span.slice? source = some text ∧ ofText? text = .ok [alone] ∧
    alone.shift component.span.start = component

/-- A span consists of a name, an opening parenthesis at an offset, and arguments up to a closing
one. -/
structure Calls (source : String) (span : Span) (name : String) (paren : Nat) : Prop where
  head : ∃ word, (Span.mk span.start paren).slice? source = some word ∧
    spanName word.toList = (word.toList, []) ∧
    name = lower (String.ofList (unescape word.toList))
  opening : (Span.mk paren (paren + 1)).slice? source = some "("
  closing : (Span.mk (span.stop - 1) span.stop).slice? source = some ")"
  inside : paren + 1 ≤ span.stop - 1

mutual

/-- A component covers a text that it is read from alone, and so do the arguments inside it. -/
def Placed (source : String) : Component → Prop
  | token span leaf => span.Covers source ∧ StandsAlone source (token span leaf)
  | function span name arguments =>
    span.Covers source ∧ StandsAlone source (function span name arguments) ∧
      ∃ paren, Calls source span name paren ∧
        Tiling source (paren + 1) (span.stop - 1) arguments

/-- Components follow each other from one offset to another, with nothing but blanks and comments
around them. -/
def Tiling (source : String) (start stop : Nat) : List Component → Prop
  | [] => ∃ gap, (Span.mk start stop).slice? source = some gap ∧ Trivia gap.toList
  | component :: components =>
    (∃ gap, (Span.mk start component.span.start).slice? source = some gap ∧
        Trivia gap.toList) ∧
      component.Placed source ∧ Tiling source component.span.stop stop components

end

/-! ### The opening of a function -/

variable {inFunction : Bool} {cur next last : Cursor} {components : List Component}

theorem spanName_of_identifier? {name : List Char} (h : cur.identifier? = some (name, next)) :
    spanName name = (name, []) := by
  unfold Cursor.identifier? at h
  split at h
  · cases h
    have hname : spanName (cur.name.1 ++ []) = (cur.name.1, []) := spanName_append_of rfl rfl
    rwa [List.append_nil] at hname
  · cases h

/-- The opening of a function is its name and a parenthesis. -/
theorem reads_opening {name : String} (h : cur.piece? = .ok (some (.opening name, next))) :
    ∃ word paren, Reads cur word paren ∧ Reads paren ['('] next ∧
      spanName word = (word, []) ∧ name = lower (String.ofList (unescape word)) := by
  cases Cursor.pieceAt_of_piece? h with
  | opening hname hparen =>
    exact ⟨_, _, (Cursor.reads_identifier? hname).1, hparen, spanName_of_identifier? hname, rfl⟩

/-! ### Components that stand alone -/

/-- A token is a sequence of lexemes or ends the text, hence it is not changed if the text ends
behind it. -/
theorem alike_of_piece? {leaf : Token} {taken : List Char}
    (h : cur.piece? = .ok (some (.token leaf, next))) (hreads : Reads cur taken next) :
    Alike cur.rest (taken ++ []) := by
  rw [hreads.rest_eq]
  -- a lone backslash is read only where the text ends behind it anyway
  rcases Cursor.firm_of_piece? h hreads with hfirm | ⟨-, hend⟩
  · exact .of_firm hfirm next.rest .ended
  · rw [hend]
    exact .same _

/-- A token is read from its own text. -/
theorem Reading.token_alone {leaf : Token} {taken : List Char} (htoken : AtToken cur.rest)
    (h : cur.piece? = .ok (some (.token leaf, next))) (hreads : Reads cur taken next) :
    Reading false ⟨cur.offset, taken⟩ [.token ⟨cur.offset, next.offset⟩ leaf]
      ⟨next.offset, []⟩ := by
  have halike := alike_of_piece? h hreads
  have hpiece := piece?_token_recut h hreads (.parted next.rest .ended) halike cur.offset
  obtain ⟨taken', hreads', hne⟩ := Cursor.reads_piece? h
  obtain rfl := hreads.unique hreads'
  rw [hreads.rest_eq] at htoken
  have htoken' := htoken.alike (.parted next.rest .ended) hne
  rw [List.append_nil] at hpiece htoken'
  rw [← hreads.offset_eq] at hpiece
  have halone := Reading.token htoken' hpiece (.nil false _)
  exact halone

/-- A function is read from its own text. -/
theorem Reading.function_alone {inside close : Cursor} {name : String}
    {arguments : List Component} {taken : List Char} (htoken : AtToken cur.rest)
    (h : cur.piece? = .ok (some (.opening name, inside)))
    (inner : Reading true inside arguments close) (hclose : AtToken close.rest)
    (hclosing : close.piece? = .ok (some (.closing, next))) (hreads : Reads cur taken next) :
    Reading false ⟨cur.offset, taken⟩ [.function ⟨cur.offset, next.offset⟩ name arguments]
      ⟨next.offset, []⟩ := by
  obtain ⟨opening, hopening, -⟩ := Cursor.reads_piece? h
  have hparen := piece?_eq_closing_iff.mp hclosing
  have hlike : AlikeBehind close.rest [')'] := by
    intro text
    have hfirm : Firm (text ++ [')']) := Firm.append ⟨by simp, by simp, by simp⟩
    have halike := Alike.of_firm hfirm next.rest .ended
    rwa [List.append_assoc, ← hparen.rest_eq, List.append_nil] at halike
  obtain ⟨inner', arguments', hinner, -, hsame, hreading⟩ :=
    inner.recut (.behind hlike) inside.offset
  obtain rfl := hsame rfl
  obtain rfl := hreads.unique ((hopening.trans hinner).trans hparen)
  rw [hopening.offset_eq] at hreading
  have halone := function_recut htoken h hopening inner hinner hclose hclosing hlike hreading rfl
    (.nil false _)
  rw [← hopening.offset_eq, ← hinner.offset_eq, ← hparen.offset_eq] at halone
  rwa [List.append_assoc]

/-- A component stands alone if it is read from its own text where it is. -/
theorem standsAlone_of_reading {source : String} {component : Component} {taken : List Char}
    (hin : cur.In source) (hreads : Reads cur taken next)
    (hspan : component.span = ⟨cur.offset, next.offset⟩)
    (h : Reading false ⟨cur.offset, taken⟩ [component] ⟨next.offset, []⟩) :
    StandsAlone source component := by
  have hread : readAll ⟨cur.offset, taken⟩ = .ok [component] :=
    readAll_eq_ok_iff.mpr ⟨_, h, rfl⟩
  rw [readAll_at] at hread
  cases hout : readAll (.start taken) with
  | error fault =>
    rw [hout] at hread
    cases hread
  | ok found =>
    rw [hout, moved_ok] at hread
    obtain ⟨alone, rfl, halone⟩ := List.map_eq_singleton_iff.mp (Except.ok.inj hread)
    refine ⟨String.ofList taken, alone, ?_, ?_, ?_⟩
    · rw [hspan]
      exact hin.slice? hreads
    · rw [ofText?, String.toList_ofList, hout]
    · rwa [hspan]

/-! ### Components are placed -/

/-- Components that are read tile the text from any place before which only trivia have been
passed. -/
theorem Reading.tiling {source : String} (h : Reading inFunction cur components last)
    {begun : Cursor} {gap : List Char} (hin : begun.In source) (hreads : Reads begun gap cur)
    (hgap : Trivia gap) : Tiling source begun.offset last.offset components := by
  -- `gap` is what was passed since the last component: a separator extends it, a component ends it
  induction h generalizing begun gap with
  | nil => exact ⟨_, hin.slice? hreads, by rwa [String.toList_ofList]⟩
  | separator h others ih =>
    obtain ⟨separator, hseparator, hfirst⟩ := Cursor.separator?_eq_ok_some_iff.mp h
    exact ih hin (hreads.trans hfirst) (hgap.append hseparator.trivia)
  | @token inFunction cur next last components leaf htoken h others ih =>
    have hcur := hin.reads hreads
    obtain ⟨taken, htaken, hne⟩ := Cursor.reads_piece? h
    refine ⟨⟨_, hin.slice? hreads, by rwa [String.toList_ofList]⟩, ⟨hcur.covers htaken hne, ?_⟩,
      ih (hcur.reads htaken) (.refl next) .nil⟩
    exact standsAlone_of_reading hcur htaken rfl (.token_alone htoken h htaken)
  | @function inFunction cur inside close next last name arguments components htoken h inner hclose
      hclosing others ihInner ih =>
    have hcur := hin.reads hreads
    obtain ⟨word, paren, hword, hopening, hname, rfl⟩ := reads_opening h
    obtain ⟨text, htext⟩ := inner.reads
    have hparen := piece?_eq_closing_iff.mp hclosing
    have htaken := ((hword.trans hopening).trans htext).trans hparen
    have hinside : inside.offset = paren.offset + 1 := hopening.offset_eq
    have hstop : next.offset = close.offset + 1 := hparen.offset_eq
    have hle := htext.offset_eq
    have harguments := ihInner ((hcur.reads hword).reads hopening) (.refl inside) .nil
    refine ⟨⟨_, hin.slice? hreads, by rwa [String.toList_ofList]⟩,
      ⟨hcur.covers htaken (by simp), ?_, paren.offset, ⟨?_, ?_, ?_, ?_⟩, ?_⟩,
      ih (hcur.reads htaken) (.refl next) .nil⟩
    · exact standsAlone_of_reading hcur htaken rfl
        (.function_alone htoken h inner hclose hclosing htaken)
    · exact ⟨_, hcur.slice? hword, by rwa [String.toList_ofList], by rw [String.toList_ofList]⟩
    · rw [← hinside]
      exact (hcur.reads hword).slice? hopening
    · rw [hstop, Nat.add_sub_cancel, ← hstop]
      exact (((hcur.reads hword).reads hopening).reads htext).slice? hparen
    · dsimp only
      omega
    · rwa [← hinside, hstop, Nat.add_sub_cancel]
  | @stray cur next last components htoken h others ih =>
    have hcur := hin.reads hreads
    have hparen := piece?_eq_closing_iff.mp h
    refine ⟨⟨_, hin.slice? hreads, by rwa [String.toList_ofList]⟩,
      ⟨hcur.covers hparen (by simp), ?_⟩, ih (hcur.reads hparen) (.refl next) .nil⟩
    have hclosing : (Cursor.mk cur.offset [')']).piece? =
        .ok (some (.closing, ⟨next.offset, []⟩)) :=
      piece?_eq_closing_iff.mpr ⟨rfl, hparen.offset_eq⟩
    have halone := Reading.stray (atToken_of_ne (by decide) (by decide)) hclosing (.nil false _)
    exact standsAlone_of_reading hcur hparen rfl halone

/-- The components of a value lose nothing of its text. Each covers a text that is not empty; they
follow each other from the beginning of the value to its end, and the arguments of a function from
its opening parenthesis to its closing one, in order and with nothing but blanks and complete
comments before, between and behind them; and the text at the span of every component, at any depth,
is a value of its own whose one component this is, with spans from zero. -/
theorem tiling_of_ofText? {text : String} {components : List Component}
    (h : ofText? text = .ok components) : Tiling text 0 (size text.toList) components := by
  obtain ⟨last, hreading, hend⟩ := readAll_eq_ok_iff.mp h
  obtain ⟨taken, hreads⟩ := hreading.reads
  have hlast : last.offset = size text.toList := by
    have hrest := hreads.rest_eq
    rw [hend, List.append_nil] at hrest
    rw [hreads.offset_eq, ← hrest]
    simp [Cursor.start]
  rw [← hlast]
  exact hreading.tiling ⟨[], .refl _⟩ (.refl _) .nil

/-- A value with a function in a function, `url(` in both of its meanings, escapes, a comment, a
parenthesis that closes nothing and a backslash at its end is tiled. -/
theorem tiling_of_ofText?_of_nested :
    ∃ components,
      ofText? "url(\"a\" b) /*c*/VAR(--x\\(y(é,-1e-z) url( /q ) ) .5e3%#\\2c x) -\\" =
        .ok components ∧
      components.length = 8 ∧
      Tiling "url(\"a\" b) /*c*/VAR(--x\\(y(é,-1e-z) url( /q ) ) .5e3%#\\2c x) -\\" 0
        (size
          "url(\"a\" b) /*c*/VAR(--x\\(y(é,-1e-z) url( /q ) ) .5e3%#\\2c x) -\\".toList)
        components := by
  have hlength :
      (ofText? "url(\"a\" b) /*c*/VAR(--x\\(y(é,-1e-z) url( /q ) ) .5e3%#\\2c x) -\\").map
        List.length = .ok 8 := by
    decide +kernel
  generalize h : ofText? _ = outcome at hlength
  cases outcome with
  | error fault => cases hlength
  | ok components => exact ⟨components, rfl, Except.ok.inj hlength, tiling_of_ofText? h⟩

end WebFonts.Css.Component
