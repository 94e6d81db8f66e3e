import WebFonts.Css.Component
import WebFonts.Proofs.Pieces

/-!
# The grammar of declaration values

`Component.Reading` is the grammar that the machine of `Component.readAll` recognizes: separators,
tokens, and functions with arguments of the same kind. `readAll_eq_ok_iff` says that the machine and
the grammar agree, so that what holds of values is shown by induction on how they are read.

* `Reading.recut`: a value is read in the same way in front of a text that begins alike.
* `Reading.scans`: the text of a value without addresses is a sequence of lexemes.
* `Reading.split`: a component divides a reading in two.
-/

namespace WebFonts.Css

/-- Runs that begin with the same step are the same. -/
theorem Pushdown.run_congr {σ α : Type} {machine : Pushdown σ α} {state state' : σ}
    {cur cur' : Cursor} (h : machine.step state cur = machine.step state' cur') :
    machine.run state cur = machine.run state' cur' := by
  rw [Pushdown.run.eq_def, Pushdown.run.eq_def machine state' cur']
  split <;> split <;> simp_all

namespace Component

open Text (size)
open Cursor (Reads)

/-- Some components stand between two cursors. A parenthesis that closes nothing is a component
where no function is open. -/
inductive Reading : (inFunction : Bool) → Cursor → List Component → Cursor → Prop
  | nil (inFunction : Bool) (cur : Cursor) : Reading inFunction cur [] cur
  | separator {inFunction : Bool} {cur next last : Cursor} {components : List Component}
      (h : cur.separator? = .ok (some next)) (others : Reading inFunction next components last) :
      Reading inFunction cur components last
  | token {inFunction : Bool} {cur next last : Cursor} {components : List Component} {leaf : Token}
      (htoken : AtToken cur.rest) (h : cur.piece? = .ok (some (.token leaf, next)))
      (others : Reading inFunction next components last) :
      Reading inFunction cur (.token ⟨cur.offset, next.offset⟩ leaf :: components) last
  | function {inFunction : Bool} {cur inside close next last : Cursor} {name : String}
      {arguments components : List Component}
      (htoken : AtToken cur.rest) (h : cur.piece? = .ok (some (.opening name, inside)))
      (inner : Reading true inside arguments close) (hclose : AtToken close.rest)
      (hclosing : close.piece? = .ok (some (.closing, next)))
      (others : Reading inFunction next components last) :
      Reading inFunction cur
        (.function ⟨cur.offset, next.offset⟩ name arguments :: components) last
  | stray {cur next last : Cursor} {components : List Component}
      (htoken : AtToken cur.rest) (h : cur.piece? = .ok (some (.closing, next)))
      (others : Reading false next components last) :
      Reading false cur (.token ⟨cur.offset, next.offset⟩ (.delim ')') :: components) last

/-! ### The machine and the grammar -/

variable {inFunction : Bool} {cur next last : Cursor} {components : List Component}

theorem run_of_separator? (h : cur.separator? = .ok (some next)) (state : State) :
    reader.run state cur = reader.run state next := by
  apply Pushdown.run_congr
  simp only [reader, step, Cursor.skipTrivia_of_separator? h]

theorem run_of_piece? {piece : Piece} (htoken : AtToken cur.rest)
    (h : cur.piece? = .ok (some (piece, next))) (state : State) :
    reader.run state cur = reader.run (state.push piece cur.offset next.offset) next := by
  apply Pushdown.run_of_onward
  simp only [reader, step, Cursor.skipTrivia_of_atToken htoken, h]

section Push

variable (functions : List OpenFunction) (read : List Component) (start stop : Nat)

theorem push_token (leaf : Token) :
    State.push ⟨functions, read⟩ (.token leaf) start stop =
      ⟨functions, .token ⟨start, stop⟩ leaf :: read⟩ := rfl

theorem push_opening (name : String) :
    State.push ⟨functions, read⟩ (.opening name) start stop =
      ⟨⟨name, start, read⟩ :: functions, []⟩ :=
  rfl

theorem push_closing (inner : OpenFunction) :
    State.push ⟨inner :: functions, read⟩ .closing start stop =
      ⟨functions, .function ⟨inner.start, stop⟩ inner.name read.reverse :: inner.before⟩ := rfl

theorem push_stray :
    State.push ⟨[], read⟩ .closing start stop =
      ⟨[], .token ⟨start, stop⟩ (.delim ')') :: read⟩ :=
  rfl

end Push

/-- The machine reads what the grammar allows, and is then in the state behind it. -/
theorem Reading.run (h : Reading inFunction cur components last) (functions : List OpenFunction)
    (hopen : inFunction = !functions.isEmpty) (read : List Component) :
    reader.run ⟨functions, read⟩ cur = reader.run ⟨functions, components.reverse ++ read⟩ last := by
  induction h generalizing functions read with
  | nil => rfl
  | separator h others ih => rw [run_of_separator? h, ih functions hopen]
  | token htoken h others ih =>
    rw [run_of_piece? htoken h, push_token, ih functions hopen]
    simp
  | @function inFunction cur inside close next last name arguments components htoken h inner hclose
      hclosing others ihInner ihOthers =>
    rw [run_of_piece? htoken h, push_opening, ihInner _ rfl, run_of_piece? hclose hclosing,
      push_closing, ihOthers functions hopen]
    simp
  | stray htoken h others ih =>
    obtain rfl : functions = [] := by simpa using hopen
    rw [run_of_piece? htoken h, push_stray, ih [] rfl]
    simp

theorem Reading.of_skipTrivia (h : cur.skipTrivia = .ok next)
    (others : Reading inFunction next components last) :
    Reading inFunction cur components last := by
  fun_induction Cursor.skipTrivia cur with
  | case1 => cases h
  | case2 => cases h; exact others
  | case3 cur between hsep ih => exact .separator hsep (ih h)

/-- Components are read behind trivia as they are without them. -/
theorem Reading.of_trivia {gap : List Char} (hgap : Trivia gap) (hreads : Reads cur gap next)
    (others : Reading inFunction next components last) :
    Reading inFunction cur components last := by
  induction hgap generalizing cur with
  | nil =>
    obtain ⟨hrest, hoffset⟩ := hreads
    obtain ⟨offset, rest⟩ := cur
    obtain ⟨offset', rest'⟩ := next
    simp_all
  | @cons separator trivia first hothers ih =>
    have hfirst : Reads cur separator (cur.pass separator (trivia ++ next.rest)) :=
      Cursor.reads_pass (by rw [hreads.rest_eq, List.append_assoc])
    refine .separator (Cursor.separator?_of_reads first hfirst) (ih ⟨rfl, ?_⟩)
    rw [hreads.offset_eq, Text.size_append, Cursor.pass, Nat.add_assoc]

theorem rest_eq_nil_of_piece? (h : cur.piece? = .ok none) : cur.rest = [] := by
  unfold Cursor.piece? Cursor.fail at h
  split at h
  · assumption
  · split at h
    · split at h <;> cases h
    · split at h <;> cases h

/-- A run that succeeds reads trivia and then finishes or goes on behind a piece. -/
theorem run_cases {state : State} {result : List Component}
    (h : reader.run state cur = .ok result) :
    ∃ begun, cur.skipTrivia = .ok begun ∧
      (begun.rest = [] ∧ state.functions = [] ∧ result = state.read.reverse ∨
        ∃ piece next, begun.piece? = .ok (some (piece, next)) ∧
          reader.run (state.push piece begun.offset next.offset) next = .ok result) := by
  rw [Pushdown.run.eq_def] at h
  split at h
  · cases h
  · rename_i hstep
    cases h
    simp only [reader, step, Cursor.fail] at hstep
    split at hstep
    · cases hstep
    · rename_i begun hskip
      split at hstep
      · cases hstep
      · rename_i hpiece
        split at hstep
        · rename_i hempty
          cases hstep
          exact ⟨begun, hskip, .inl ⟨rest_eq_nil_of_piece? hpiece, List.isEmpty_iff.mp hempty, rfl⟩⟩
        · cases hstep
      · cases hstep
  · rename_i hstep
    simp only [reader, step, Cursor.fail] at hstep
    split at hstep
    · cases hstep
    · rename_i begun hskip
      split at hstep
      · cases hstep
      · split at hstep <;> cases hstep
      · rename_i hpiece
        cases hstep
        exact ⟨begun, hskip, .inr ⟨_, _, hpiece, h⟩⟩

/-- What the machine goes on to read from a state: some components, and then the end of the text or
the parenthesis that closes the innermost function. -/
theorem reading_of_run {functions : List OpenFunction} {read result : List Component}
    (h : reader.run ⟨functions, read⟩ cur = .ok result) :
    ∃ components last, Reading (!functions.isEmpty) cur components last ∧ AtToken last.rest ∧
      match functions with
      | [] => last.rest = [] ∧ result = read.reverse ++ components
      | inner :: outer =>
        ∃ next, last.piece? = .ok (some (.closing, next)) ∧
          next.rest.length < cur.rest.length ∧
          reader.run ⟨outer, .function ⟨inner.start, next.offset⟩ inner.name
            (read.reverse ++ components) :: inner.before⟩ next = .ok result := by
  induction hlength : cur.rest.length using Nat.strong_induction_on
    generalizing cur functions read with
  | _ length ih =>
    subst hlength
    obtain ⟨begun, hskip, hcases⟩ := run_cases h
    have hbegun := Cursor.atToken_of_skipTrivia hskip
    have hle := Cursor.length_le_of_skipTrivia hskip
    rcases hcases with ⟨hend, rfl, rfl⟩ | ⟨piece, next, hpiece, hrun⟩
    · exact ⟨[], begun, .of_skipTrivia hskip (.nil _ _), hbegun, hend, by simp⟩
    · have hlt := Cursor.length_lt_of_piece? hpiece
      cases piece with
      | token leaf =>
        rw [push_token] at hrun
        obtain ⟨components, last, hreading, hlast, hresult⟩ := ih _ (by omega) hrun rfl
        refine ⟨_, last, .of_skipTrivia hskip (.token hbegun hpiece hreading), hlast, ?_⟩
        cases functions with
        | nil => simpa using hresult
        | cons inner outer =>
          obtain ⟨after, hclosing, hshort, hafter⟩ := hresult
          exact ⟨after, hclosing, by omega, by simpa using hafter⟩
      | opening name =>
        rw [push_opening] at hrun
        obtain ⟨arguments, close, hinner, hclose, after, hclosing, hshort, hafter⟩ :=
          ih _ (by omega) hrun rfl
        obtain ⟨components, last, hreading, hlast, hresult⟩ := ih _ (by omega) hafter rfl
        refine ⟨_, last, .of_skipTrivia hskip
          (.function hbegun hpiece hinner hclose hclosing hreading),
          hlast, ?_⟩
        cases functions with
        | nil => simpa using hresult
        | cons inner outer =>
          obtain ⟨next', hclosing', hshort', hnext'⟩ := hresult
          exact ⟨next', hclosing', by omega, by simpa using hnext'⟩
      | closing =>
        cases functions with
        | nil =>
          rw [push_stray] at hrun
          obtain ⟨components, last, hreading, hlast, hresult⟩ := ih _ (by omega) hrun rfl
          exact ⟨_, last, .of_skipTrivia hskip (.stray hbegun hpiece hreading), hlast,
            by simpa using hresult⟩
        | cons inner outer =>
          rw [push_closing] at hrun
          exact ⟨[], begun, .of_skipTrivia hskip (.nil _ _), hbegun, next, hpiece, by omega,
            by simpa using hrun⟩

/-- The machine and the grammar agree on whole values. -/
theorem readAll_eq_ok_iff :
    readAll cur = .ok components ↔ ∃ last, Reading false cur components last ∧ last.rest = [] := by
  constructor
  · intro h
    obtain ⟨components', last, hreading, -, hend, rfl⟩ := reading_of_run h
    exact ⟨last, hreading, hend⟩
  · rintro ⟨last, hreading, hend⟩
    unfold readAll
    rw [hreading.run [] rfl []]
    apply Pushdown.run_of_done
    have hskip := Cursor.skipTrivia_of_atToken (by rw [hend]; trivial)
    have hpiece : last.piece? = .ok none := by
      unfold Cursor.piece?
      rw [hend]
    simp [reader, step, hskip, hpiece]

/-! ### Components without their places -/

mutual

/-- A component with every span set to nothing. -/
def bare : Component → Component
  | .token _ leaf => .token ⟨0, 0⟩ leaf
  | .function _ name arguments => .function ⟨0, 0⟩ name (bareAll arguments)

/-- Components with every span set to nothing. -/
def bareAll : List Component → List Component
  | [] => []
  | component :: components => component.bare :: bareAll components

end

mutual

/-- Whether an address stands in a component, at any depth. -/
def hasUrl : Component → Bool
  | .token _ (.url _) => true
  | .token _ _ => false
  | .function _ _ arguments => anyHasUrl arguments

/-- Whether an address stands in components, at any depth. -/
def anyHasUrl : List Component → Bool
  | [] => false
  | component :: components => component.hasUrl || anyHasUrl components

end

theorem bareAll_append (front back : List Component) :
    bareAll (front ++ back) = bareAll front ++ bareAll back := by
  induction front with
  | nil => rfl
  | cons component front ih => simp [bareAll, ih]

theorem anyHasUrl_append (front back : List Component) :
    anyHasUrl (front ++ back) = (anyHasUrl front || anyHasUrl back) := by
  induction front with
  | nil => rfl
  | cons component front ih => simp [anyHasUrl, ih, Bool.or_assoc]

/-! ### Functions that look like an address -/

theorem Reading.skip (h : Reading inFunction cur components last) (hlast : AtToken last.rest) :
    ∃ begun, cur.skipTrivia = .ok begun ∧ AtToken begun.rest ∧
      Reading inFunction begun components last := by
  induction h with
  | nil inFunction cur =>
    exact ⟨cur, Cursor.skipTrivia_of_atToken hlast, hlast, .nil inFunction cur⟩
  | separator h others ih =>
    obtain ⟨begun, hskip, hbegun, hreading⟩ := ih hlast
    exact ⟨begun, by rw [Cursor.skipTrivia_of_separator? h, hskip], hbegun, hreading⟩
  | token htoken h others =>
    exact ⟨_, Cursor.skipTrivia_of_atToken htoken, htoken, .token htoken h others⟩
  | function htoken h inner hclose hclosing others =>
    exact ⟨_, Cursor.skipTrivia_of_atToken htoken, htoken,
      .function htoken h inner hclose hclosing others⟩
  | stray htoken h others =>
    exact ⟨_, Cursor.skipTrivia_of_atToken htoken, htoken, .stray htoken h others⟩

theorem Reading.reads (h : Reading inFunction cur components last) :
    ∃ taken, Reads cur taken last := by
  induction h with
  | nil => exact ⟨[], .refl _⟩
  | separator h others ih =>
    obtain ⟨separator, hfirst, -⟩ := Cursor.reads_separator? h
    obtain ⟨taken, hothers⟩ := ih
    exact ⟨_, hfirst.trans hothers⟩
  | token htoken h others ih =>
    obtain ⟨piece, hfirst, -⟩ := Cursor.reads_piece? h
    obtain ⟨taken, hothers⟩ := ih
    exact ⟨_, hfirst.trans hothers⟩
  | function htoken h inner hclose hclosing others ihInner ihOthers =>
    obtain ⟨opening, hopening, -⟩ := Cursor.reads_piece? h
    obtain ⟨arguments, hinner⟩ := ihInner
    obtain ⟨closing, hclosing, -⟩ := Cursor.reads_piece? hclosing
    obtain ⟨taken, hothers⟩ := ihOthers
    exact ⟨_, ((hopening.trans hinner).trans hclosing).trans hothers⟩
  | stray htoken h others ih =>
    obtain ⟨piece, hfirst, -⟩ := Cursor.reads_piece? h
    obtain ⟨taken, hothers⟩ := ih
    exact ⟨_, hfirst.trans hothers⟩

/-- Components end behind the cursor. -/
theorem Reading.within (h : Reading inFunction cur components last) :
    ∀ component ∈ components,
      cur.offset < component.span.stop ∧ component.span.stop ≤ last.offset := by
  induction h with
  | nil => exact nofun
  | separator h others ih =>
    obtain ⟨separator, hseparator, -⟩ := Cursor.reads_separator? h
    have := hseparator.offset_le
    intro component hmem
    have := ih component hmem
    omega
  | token htoken h others ih =>
    obtain ⟨piece, hpiece, hne⟩ := Cursor.reads_piece? h
    obtain ⟨taken, htaken⟩ := others.reads
    have hfirst := hpiece.offset_lt hne
    have hothers := htaken.offset_le
    rintro component (_ | ⟨_, hmem⟩)
    · exact ⟨hfirst, hothers⟩
    · have := ih component hmem
      omega
  | function htoken h inner hclose hclosing others ihInner ih =>
    obtain ⟨opening, hopening, hne⟩ := Cursor.reads_piece? h
    obtain ⟨arguments, harguments⟩ := inner.reads
    obtain ⟨closing, hclosing, -⟩ := Cursor.reads_piece? hclosing
    obtain ⟨taken, htaken⟩ := others.reads
    have hfirst := (hopening.offset_lt hne).trans_le (harguments.trans hclosing).offset_le
    have hothers := htaken.offset_le
    rintro component (_ | ⟨_, hmem⟩)
    · exact ⟨hfirst, hothers⟩
    · have := ih component hmem
      omega
  | stray htoken h others ih =>
    obtain ⟨piece, hpiece, hne⟩ := Cursor.reads_piece? h
    obtain ⟨taken, htaken⟩ := others.reads
    have hfirst := hpiece.offset_lt hne
    have hothers := htaken.offset_le
    rintro component (_ | ⟨_, hmem⟩)
    · exact ⟨hfirst, hothers⟩
    · have := ih component hmem
      omega

/-- A parenthesis that closes is read exactly where one stands. -/
theorem piece?_eq_closing_iff :
    cur.piece? = .ok (some (.closing, next)) ↔ Reads cur [')'] next := by
  constructor
  · intro h
    cases Cursor.pieceAt_of_piece? h with
    | closing hreads => exact hreads
  · rintro ⟨hrest, hoffset⟩
    obtain ⟨offset, rest⟩ := next
    dsimp only at hrest hoffset
    subst hoffset
    unfold Cursor.piece?
    rw [hrest]
    rfl

theorem dropWhile_of_mem {text : List Char} (h : ')' ∈ text) :
    ∃ rest, text.dropWhile (· != ')') = ')' :: rest := by
  induction text with
  | nil => cases h
  | cons c text ih =>
    by_cases hc : c = ')'
    · subst hc
      exact ⟨text, rfl⟩
    · rw [List.dropWhile_cons_of_pos (by simpa using hc)]
      exact ih ((List.mem_cons.mp h).resolve_left (Ne.symm hc))

/-- Without a quote everything up to a parenthesis is an address. -/
theorem url?_of_bare {inside begun : Cursor}
    (hword : cur.word? ['u', 'r', 'l', '('] = some inside) (hskip : inside.skipTrivia = .ok begun)
    (hquote : begun.rest.head?.any isQuote = false) (hmem : ')' ∈ begun.rest) :
    cur.url? ≠ none := by
  obtain ⟨rest, hrest⟩ := dropWhile_of_mem hmem
  have haddress : begun.address? = some begun.bareAddress := by
    rw [Cursor.address?, hquote]
    rfl
  have hend : begun.bareAddress.2.rest = ')' :: rest := hrest
  have hstay : begun.bareAddress.2.skipTrivia = .ok begun.bareAddress.2 := by
    apply Cursor.skipTrivia_of_atToken
    rw [hend]
    exact atToken_of_ne (by decide) (by decide)
  simp [Cursor.url?, hword, hskip, haddress, hstay, Cursor.char?_of_cons hend, Except.toOption]

/-- A string with nothing but trivia up to a parenthesis is an address. -/
theorem url?_of_string {inside begun ended close : Cursor} {text : String}
    (hword : cur.word? ['u', 'r', 'l', '('] = some inside) (hskip : inside.skipTrivia = .ok begun)
    (hquote : begun.rest.head?.any isQuote = true) (hquoted : begun.quoted? = some (text, ended))
    (hskip' : ended.skipTrivia = .ok close) :
    cur.url? = (close.char? ')').map fun next => (.url text, next) := by
  have haddress : begun.address? = some (text, ended) := by
    rw [Cursor.address?, if_pos hquote, hquoted]
  rw [Cursor.url?]
  simp only [hword, hskip, haddress, hskip', Except.toOption, Option.bind_eq_bind, Option.bind_some]
  cases close.char? ')' <;> rfl

theorem piece?_of_quote (hquote : cur.rest.head?.any isQuote = true) {piece : Piece}
    (h : cur.piece? = .ok (some (piece, next))) :
    ∃ text, piece = .token (.string text) ∧ cur.quoted? = some (text, next) := by
  unfold Cursor.piece? Cursor.fail at h
  split at h
  · cases h
  · rename_i c rest hrest
    rw [hrest] at hquote
    rw [if_pos (by simpa using hquote)] at h
    split at h <;> cases h
    exact ⟨_, rfl, ‹_›⟩

theorem quote_of_piece? {text : String}
    (h : cur.piece? = .ok (some (.token (.string text), next))) :
    cur.rest.head?.any isQuote = true := by
  cases Cursor.pieceAt_of_piece? h with
  | string hquoted =>
    obtain ⟨quoted, -, hlexeme⟩ := Cursor.quoted?_eq_some_iff.mp hquoted
    obtain ⟨hbefore, hreads⟩ := Cursor.lexeme?_eq_ok_some_iff.mp hlexeme
    rw [hreads.rest_eq]
    cases hbefore with
    | quoted hquote => simpa [Lexeme.text] using hquote

/-- If the arguments of a function named `url` are not an address, a string and something else are
the first of them. -/
theorem Reading.string_of_url?_none {inside close : Cursor} {arguments : List Component}
    (hword : cur.word? ['u', 'r', 'l', '('] = some inside) (hurl : cur.url? = none)
    (h : Reading true inside arguments close) (hclose : AtToken close.rest)
    (hclosing : close.piece? = .ok (some (.closing, next))) :
    ∃ span text second others, arguments = .token span (.string text) :: second :: others := by
  have hrest : close.rest = ')' :: next.rest := (piece?_eq_closing_iff.mp hclosing).rest_eq
  obtain ⟨begun, hskip, hbegun, hreading⟩ := h.skip hclose
  have hquote : begun.rest.head?.any isQuote = true := by
    by_contra hquote
    obtain ⟨taken, hreads⟩ := hreading.reads
    refine url?_of_bare hword hskip (by simpa using hquote) ?_ hurl
    rw [hreads.rest_eq, hrest]
    simp
  have hnone := Cursor.separator?_eq_ok_none_iff.mpr hbegun
  cases hreading with
  | nil => rw [hrest] at hquote; cases hquote
  | separator h => rw [hnone] at h; cases h
  | function htoken hpiece =>
    obtain ⟨text, heq, -⟩ := piece?_of_quote hquote hpiece
    cases heq
  | token htoken hpiece others =>
    obtain ⟨text, heq, hquoted⟩ := piece?_of_quote hquote hpiece
    cases heq
    obtain ⟨second, hskip', hsecond, hothers⟩ := others.skip hclose
    have hnone' := Cursor.separator?_eq_ok_none_iff.mpr hsecond
    cases hothers with
    | nil =>
      rw [url?_of_string hword hskip hquote hquoted hskip', Cursor.char?_of_cons hrest] at hurl
      cases hurl
    | separator h => rw [hnone'] at h; cases h
    | token => exact ⟨_, _, _, _, rfl⟩
    | function => exact ⟨_, _, _, _, rfl⟩

/-- A function named `url` whose first arguments are a string and something else is no address. -/
theorem Reading.url?_none_of_string {inside close : Cursor} {span : Span} {text : String}
    {second : Component} {others : List Component}
    (hword : cur.word? ['u', 'r', 'l', '('] = some inside)
    (h : Reading true inside (.token span (.string text) :: second :: others) close)
    (hclose : AtToken close.rest) : cur.url? = none := by
  obtain ⟨begun, hskip, hbegun, hreading⟩ := h.skip hclose
  have hnone := Cursor.separator?_eq_ok_none_iff.mpr hbegun
  cases hreading with
  | separator h => rw [hnone] at h; cases h
  | token htoken hpiece hothers =>
    rename_i ended
    have hquote := quote_of_piece? hpiece
    obtain ⟨text', heq, hquoted⟩ := piece?_of_quote hquote hpiece
    cases heq
    obtain ⟨begun', hskip', hbegun', hreading'⟩ := hothers.skip hclose
    have hnone' := Cursor.separator?_eq_ok_none_iff.mpr hbegun'
    rw [url?_of_string hword hskip hquote hquoted hskip']
    have hchar : begun'.char? ')' = none := by
      rw [Cursor.char?_eq_none_iff]
      intro hhead
      obtain ⟨rest, hrest⟩ : ∃ rest, begun'.rest = ')' :: rest := by
        cases hbegunRest : begun'.rest <;> simp_all
      have hclosing := piece?_eq_closing_iff.mpr (Cursor.reads_pass hrest)
      cases hreading' with
      | separator h => rw [hnone'] at h; cases h
      | token htoken' hpiece' => rw [hclosing] at hpiece'; cases hpiece'
      | function htoken' hpiece' => rw [hclosing] at hpiece'; cases hpiece'
    rw [hchar]
    rfl

/-! ### Reading in a changed text -/

theorem bareAll_eq_string {components : List Component} {text : String} {second : Component}
    {others : List Component} {span : Span}
    (h : bareAll components = bareAll (.token span (.string text) :: second :: others)) :
    ∃ span second others, components = .token span (.string text) :: second :: others := by
  match components with
  | [] => cases h
  | [component] => simp [bareAll] at h
  | .function .. :: _ :: _ => simp [bareAll, bare] at h
  | .token span leaf :: second :: others =>
    simp only [bareAll, bare, List.cons.injEq, token.injEq, true_and] at h
    exact ⟨span, second, others, by rw [h.1]⟩

/-- Two texts begin alike behind any text. -/
def AlikeBehind (rest rest' : List Char) : Prop :=
  ∀ text, Alike (text ++ rest) (text ++ rest')

theorem AlikeBehind.refl (rest : List Char) : AlikeBehind rest rest :=
  fun _ => .same _

/-- Components end in a lone backslash, which would protect what followed them. -/
def EndsLone (components : List Component) : Prop :=
  ∃ span, components.getLast? = some (.token span (.delim '\\'))

/-- Two texts begin alike behind the components that are read in front of the first one. -/
inductive AlikeAfter (components : List Component) (rest rest' : List Char) : Prop
  | behind (h : AlikeBehind rest rest')
  | parted (hparted : Parted rest') (hlone : ¬ EndsLone components)

theorem EndsLone.cons {components : List Component} (h : EndsLone components)
    (component : Component) : EndsLone (component :: components) := by
  obtain ⟨span, hlast⟩ := h
  exact ⟨span, by rw [List.getLast?_cons, hlast]; rfl⟩

theorem AlikeAfter.of_cons {component : Component} {components : List Component}
    {rest rest' : List Char} (h : AlikeAfter (component :: components) rest rest') :
    AlikeAfter components rest rest' := by
  cases h with
  | behind h => exact .behind h
  | parted hparted hlone => exact .parted hparted fun hends => hlone (hends.cons component)

theorem AlikeBehind.append {rest rest' : List Char} (h : AlikeBehind rest rest')
    (text : List Char) : AlikeBehind (text ++ rest) (text ++ rest') := by
  intro front
  rw [← List.append_assoc, ← List.append_assoc]
  exact h (front ++ text)

/-- Nothing but no component stands at the end of a text. -/
theorem Reading.eq_nil_of_end (h : Reading inFunction cur components last) (hend : cur.rest = []) :
    components = [] := by
  cases h with
  | nil => rfl
  | separator h =>
    obtain ⟨separator, hreads, hne⟩ := Cursor.reads_separator? h
    rw [hreads.rest_eq] at hend
    exact absurd (List.append_eq_nil_iff.mp hend).1 hne
  | token _ h | function _ h | stray _ h =>
    obtain ⟨taken, hreads, hne⟩ := Cursor.reads_piece? h
    rw [hreads.rest_eq] at hend
    exact absurd (List.append_eq_nil_iff.mp hend).1 hne

/-- Texts begin alike behind the text of components that do not end in a lone backslash. -/
theorem Reading.firm (h : Reading inFunction cur components last) {taken : List Char}
    (hreads : Reads cur taken last) : taken = [] ∨ Firm taken ∨ EndsLone components := by
  induction h generalizing taken with
  | nil =>
    have := hreads.unique (.refl _)
    exact .inl this
  | separator h others ih =>
    obtain ⟨separator, hseparator, hfirst⟩ := Cursor.separator?_eq_ok_some_iff.mp h
    obtain ⟨text, htext⟩ := others.reads
    obtain rfl := hreads.unique (hfirst.trans htext)
    rcases ih htext with rfl | hfirm | hends
    · rw [List.append_nil]
      exact .inr (.inl (hseparator.whole.firm hseparator.ne_nil))
    · exact .inr (.inl hfirm.append)
    · exact .inr (.inr hends)
  | token htoken h others ih =>
    obtain ⟨piece, hpiece, -⟩ := Cursor.reads_piece? h
    obtain ⟨text, htext⟩ := others.reads
    obtain rfl := hreads.unique (hpiece.trans htext)
    rcases ih htext with rfl | hfirm | hends
    · rw [List.append_nil]
      rcases Cursor.firm_of_piece? h hpiece with hfirm | ⟨heq, hend⟩
      · exact .inr (.inl hfirm)
      · cases heq
        rw [others.eq_nil_of_end hend]
        exact .inr (.inr ⟨_, rfl⟩)
    · exact .inr (.inl hfirm.append)
    · exact .inr (.inr (hends.cons _))
  | function htoken h inner hclose hclosing others ihInner ih =>
    obtain ⟨opening, hopening, -⟩ := Cursor.reads_piece? h
    obtain ⟨arguments, harguments⟩ := inner.reads
    have hparen := piece?_eq_closing_iff.mp hclosing
    obtain ⟨text, htext⟩ := others.reads
    obtain rfl := hreads.unique (((hopening.trans harguments).trans hparen).trans htext)
    rcases ih htext with rfl | hfirm | hends
    · rw [List.append_nil]
      exact .inr (.inl (Firm.append ⟨by simp, by simp, by simp⟩))
    · exact .inr (.inl hfirm.append)
    · exact .inr (.inr (hends.cons _))
  | stray htoken h others ih =>
    have hparen := piece?_eq_closing_iff.mp h
    obtain ⟨text, htext⟩ := others.reads
    obtain rfl := hreads.unique (hparen.trans htext)
    rcases ih htext with rfl | hfirm | hends
    · exact .inr (.inl ⟨by simp, by simp, by simp⟩)
    · exact .inr (.inl hfirm.append)
    · exact .inr (.inr (hends.cons _))

/-- The text of components and what follows it begins like the same text and what follows it
instead, by itself and behind a text that texts begin alike behind. -/
theorem Reading.alike (h : Reading inFunction cur components last) {taken rest' : List Char}
    (hreads : Reads cur taken last) (hlike : AlikeAfter components last.rest rest')
    {text : List Char} (htext : text = [] ∨ Firm text) :
    Alike (text ++ cur.rest) (text ++ (taken ++ rest')) := by
  cases hlike with
  | behind hlike => exact hreads.rest_eq ▸ hlike.append taken text
  | parted hparted hlone =>
    rw [hreads.rest_eq, ← List.append_assoc, ← List.append_assoc]
    rcases h.firm hreads with rfl | hfirm | hends
    · rw [List.append_nil]
      rcases htext with rfl | hfirm
      · exact .parted _ hparted
      · exact .of_firm hfirm _ hparted
    · exact .of_firm hfirm.append _ hparted
    · exact absurd hends hlone

/-- A token is read in front of a text that begins alike. -/
theorem piece?_token_recut {leaf : Token} {taken rest' : List Char}
    (h : cur.piece? = .ok (some (.token leaf, next))) (hreads : Reads cur taken next)
    (hfollow : Alike next.rest rest') (hwhole : Alike cur.rest (taken ++ rest')) (offset : Nat) :
    (Cursor.mk offset (taken ++ rest')).piece? =
      .ok (some (.token leaf, ⟨offset + size taken, rest'⟩)) := by
  cases hurl : cur.url? with
  | some found =>
    obtain ⟨token, last⟩ := found
    rw [Cursor.piece?_of_url? hurl] at h
    cases h
    exact Cursor.piece?_of_url? (Cursor.url?_recut hurl hreads offset rest')
  | none =>
    have hword : cur.word? ['u', 'r', 'l', '('] = none := by
      cases hword : cur.word? ['u', 'r', 'l', '('] with
      | none => rfl
      | some inside =>
        obtain ⟨name, hopening⟩ := Cursor.piece?_of_word? hword hurl
        rw [h] at hopening
        cases hopening
    exact Cursor.piece?_recut h hreads hfollow offset hwhole hurl
      (Cursor.url?_none_alike hword hwhole offset)

/-- The opening of a function is read in front of a text that begins alike, if its arguments are
still read there: that `url(` opens a function shows in them. -/
theorem Reading.piece?_opening_recut {inside close inside' close' : Cursor} {name : String}
    {arguments arguments' : List Component} {opening : List Char}
    (h : cur.piece? = .ok (some (.opening name, inside))) (hopening : Reads cur opening inside)
    (inner : Reading true inside arguments close) (hclose : AtToken close.rest)
    (hclosing : close.piece? = .ok (some (.closing, next)))
    (hlike : AlikeBehind inside.rest inside'.rest)
    (inner' : Reading true inside' arguments' close') (hclose' : AtToken close'.rest)
    (hbare : bareAll arguments' = bareAll arguments) {offset : Nat}
    (hoffset : inside'.offset = offset + size opening) :
    (Cursor.mk offset (opening ++ inside'.rest)).piece? = .ok (some (.opening name, inside')) := by
  have hwhole : Alike cur.rest (opening ++ inside'.rest) := hopening.rest_eq ▸ hlike opening
  have hnone : cur.url? = none := Cursor.url?_none_of_piece? h nofun
  have hfollow : Alike inside.rest inside'.rest := hlike []
  obtain ⟨offset', rest'⟩ := inside'
  dsimp only at hoffset hfollow hwhole ⊢
  subst hoffset
  refine Cursor.piece?_recut h hopening hfollow offset hwhole hnone ?_
  cases hword : cur.word? ['u', 'r', 'l', '('] with
  | none => exact Cursor.url?_none_alike hword hwhole offset
  | some inside' =>
    obtain ⟨name', hopening'⟩ := Cursor.piece?_of_word? hword hnone
    rw [h] at hopening'
    cases hopening'
    obtain ⟨span, text, second, others', rfl⟩ :=
      inner.string_of_url?_none hword hnone hclose hclosing
    obtain ⟨span', second', others'', rfl⟩ := bareAll_eq_string hbare
    exact inner'.url?_none_of_string (Cursor.word?_recut hword hopening rest' offset) hclose'

/-- A function is read in front of any text in front of which its arguments are read: nothing behind
its closing parenthesis matters to them. -/
theorem Reading.function_recut {inside close last' : Cursor} {name : String}
    {arguments arguments' components' : List Component} {opening taken rest' : List Char}
    (htoken : AtToken cur.rest) (h : cur.piece? = .ok (some (.opening name, inside)))
    (hopening : Reads cur opening inside) (inner : Reading true inside arguments close)
    (hinner : Reads inside taken close) (hclose : AtToken close.rest)
    (hclosing : close.piece? = .ok (some (.closing, next)))
    (hlike : AlikeBehind close.rest (')' :: rest')) {offset : Nat}
    (inner' : Reading true ⟨offset + size opening, taken ++ ')' :: rest'⟩ arguments'
      ⟨offset + size opening + size taken, ')' :: rest'⟩)
    (hbare : bareAll arguments' = bareAll arguments)
    (others' : Reading inFunction ⟨offset + size opening + size taken + size [')'], rest'⟩
      components' last') :
    Reading inFunction ⟨offset, opening ++ (taken ++ ')' :: rest')⟩
      (.function ⟨offset, offset + size opening + size taken + size [')']⟩ name arguments' ::
        components') last' := by
  have hlikeInside : AlikeBehind inside.rest (taken ++ ')' :: rest') := by
    rw [hinner.rest_eq]
    exact hlike.append taken
  obtain ⟨opening', hopening', hne⟩ := Cursor.reads_piece? h
  obtain rfl := hopening.unique hopening'
  rw [hopening.rest_eq] at htoken
  have hclose' : AtToken (')' :: rest') := atToken_of_ne (by decide) (by decide)
  exact .function (htoken.alike (hlikeInside []) hne)
    (piece?_opening_recut h hopening inner hclose hclosing hlikeInside inner' hclose' hbare rfl)
    inner' hclose' (piece?_eq_closing_iff.mpr ⟨rfl, rfl⟩) others'

/-- Components are read in the same way in front of a text that begins alike, and with the same
spans where the cursor stays. -/
theorem Reading.recut (h : Reading inFunction cur components last) {rest' : List Char}
    (hlike : AlikeAfter components last.rest rest') (offset : Nat) :
    ∃ taken components', Reads cur taken last ∧ bareAll components' = bareAll components ∧
      (offset = cur.offset → components' = components) ∧
      Reading inFunction ⟨offset, taken ++ rest'⟩ components' ⟨offset + size taken, rest'⟩ := by
  induction h generalizing offset rest' with
  | nil inFunction cur => exact ⟨[], [], .refl _, rfl, fun _ => rfl, .nil _ _⟩
  | separator h others ih =>
    obtain ⟨separator, hseparator, hfirst⟩ := Cursor.separator?_eq_ok_some_iff.mp h
    obtain ⟨taken, components', hreads, hbare, hsame, hreading⟩ :=
      ih hlike (offset + size separator)
    refine ⟨_, components', hfirst.trans hreads, hbare, fun heq => hsame ?_, ?_⟩
    · rw [heq, hfirst.offset_eq]
    · rw [Text.size_append, ← Nat.add_assoc]
      exact .separator (Cursor.separator?_of_reads hseparator ⟨List.append_assoc .., rfl⟩) hreading
  | @token inFunction cur next last components leaf htoken h others ih =>
    obtain ⟨piece, hpiece, hne⟩ := Cursor.reads_piece? h
    obtain ⟨taken, components', hreads, hbare, hsame, hreading⟩ :=
      ih hlike.of_cons (offset + size piece)
    have hfollow : Alike next.rest (taken ++ rest') := others.alike hreads hlike.of_cons (.inl rfl)
    have hwhole : Alike cur.rest (piece ++ taken ++ rest') :=
      (Reading.token htoken h others).alike (hpiece.trans hreads) hlike (.inl rfl)
    rw [List.append_assoc] at hwhole
    have htoken' : AtToken (piece ++ next.rest) := hpiece.rest_eq ▸ htoken
    refine ⟨_, .token ⟨offset, offset + size piece⟩ leaf :: components', hpiece.trans hreads,
      ?_, ?_, ?_⟩
    · simp [bareAll, bare, hbare]
    · rintro rfl
      rw [hsame hpiece.offset_eq.symm, hpiece.offset_eq]
    · rw [Text.size_append, ← Nat.add_assoc, List.append_assoc]
      exact .token (htoken'.alike hfollow hne)
        (piece?_token_recut h hpiece hfollow hwhole offset) hreading
  | @function inFunction cur inside close next last name arguments components htoken h inner hclose
      hclosing others ihInner ihOthers =>
    obtain ⟨opening, hopening, -⟩ := Cursor.reads_piece? h
    have hparen := piece?_eq_closing_iff.mp hclosing
    obtain ⟨takenOthers, hreadsOthers⟩ := others.reads
    -- whatever is read behind the function, its arguments are read in front of a parenthesis
    have hlikeClose : AlikeBehind close.rest (')' :: (takenOthers ++ rest')) := by
      intro text
      have hfirm : Firm (text ++ [')']) := Firm.append ⟨by simp, by simp, by simp⟩
      have halike := others.alike hreadsOthers hlike.of_cons (.inr hfirm)
      rwa [List.append_assoc, List.append_assoc, ← hparen.rest_eq] at halike
    obtain ⟨takenInner, arguments', hreadsInner, hbareInner, hsameInner, hreadingInner⟩ :=
      ihInner (.behind hlikeClose) (offset + size opening)
    obtain ⟨taken, components', hreads, hbare, hsame, hreading⟩ :=
      ihOthers hlike.of_cons (offset + size opening + size takenInner + size [')'])
    obtain rfl := hreads.unique hreadsOthers
    refine ⟨_, .function ⟨offset, offset + size opening + size takenInner + size [')']⟩ name
      arguments' :: components', ((hopening.trans hreadsInner).trans hparen).trans hreads, ?_, ?_,
      ?_⟩
    · simp [bareAll, bare, hbare, hbareInner]
    · rintro rfl
      have hnext : cur.offset + size opening + size takenInner + size [')'] = next.offset := by
        rw [hparen.offset_eq, hreadsInner.offset_eq, hopening.offset_eq]
      rw [hsameInner hopening.offset_eq.symm, hsame hnext, hnext]
    · simp only [Text.size_append, ← Nat.add_assoc, List.append_assoc]
      exact function_recut htoken h hopening inner hreadsInner hclose hclosing hlikeClose
        hreadingInner hbareInner hreading
  | @stray cur next last components htoken h others ih =>
    obtain ⟨taken, components', hreads, hbare, hsame, hreading⟩ :=
      ih hlike.of_cons (offset + size [')'])
    have hparen := piece?_eq_closing_iff.mp h
    refine ⟨_, .token ⟨offset, offset + size [')']⟩ (.delim ')') :: components',
      hparen.trans hreads, ?_, ?_, ?_⟩
    · simp [bareAll, bare, hbare]
    · rintro rfl
      rw [hsame hparen.offset_eq.symm, hparen.offset_eq]
    · rw [Text.size_append, ← Nat.add_assoc, List.append_assoc]
      have htoken' : AtToken (')' :: (taken ++ rest')) := atToken_of_ne (by decide) (by decide)
      exact .stray htoken' (piece?_eq_closing_iff.mpr ⟨rfl, rfl⟩) hreading

/-! ### Dividing and joining readings -/

theorem Reading.append {middle : Cursor} {front back : List Component}
    (hfront : Reading inFunction cur front middle) (hback : Reading inFunction middle back last) :
    Reading inFunction cur (front ++ back) last := by
  induction hfront with
  | nil => exact hback
  | separator h others ih => exact .separator h (ih hback)
  | token htoken h others ih => exact .token htoken h (ih hback)
  | function htoken h inner hclose hclosing others ihInner ih =>
    exact .function htoken h inner hclose hclosing (ih hback)
  | stray htoken h others ih => exact .stray htoken h (ih hback)

/-- A reading is divided by any token of it. -/
theorem Reading.split {front back : List Component} {span : Span} {leaf : Token}
    (h : Reading inFunction cur (front ++ .token span leaf :: back) last)
    (hleaf : leaf ≠ .delim ')') :
    ∃ begun ended, Reading inFunction cur front begun ∧ AtToken begun.rest ∧
      begun.piece? = .ok (some (.token leaf, ended)) ∧ span = ⟨begun.offset, ended.offset⟩ ∧
      Reading inFunction ended back last := by
  generalize hcomponents : front ++ .token span leaf :: back = components at h
  induction h generalizing front with
  | nil => simp at hcomponents
  | separator hseparator others ih =>
    obtain ⟨begun, ended, hfront, hrest⟩ := ih hcomponents
    exact ⟨begun, ended, .separator hseparator hfront, hrest⟩
  | token htoken hpiece others ih =>
    cases front with
    | nil =>
      cases hcomponents
      exact ⟨_, _, .nil _ _, htoken, hpiece, rfl, others⟩
    | cons first front =>
      obtain ⟨rfl, htail⟩ := List.cons_eq_cons.mp hcomponents
      obtain ⟨begun, ended, hfront, hrest⟩ := ih htail
      exact ⟨begun, ended, .token htoken hpiece hfront, hrest⟩
  | function htoken hpiece inner hclose hclosing others ihInner ih =>
    cases front with
    | nil => cases hcomponents
    | cons first front =>
      obtain ⟨rfl, htail⟩ := List.cons_eq_cons.mp hcomponents
      obtain ⟨begun, ended, hfront, hrest⟩ := ih htail
      exact ⟨begun, ended, .function htoken hpiece inner hclose hclosing hfront, hrest⟩
  | stray htoken hpiece others ih =>
    cases front with
    | nil =>
      cases hcomponents
      exact absurd rfl hleaf
    | cons first front =>
      obtain ⟨rfl, htail⟩ := List.cons_eq_cons.mp hcomponents
      obtain ⟨begun, ended, hfront, hrest⟩ := ih htail
      exact ⟨begun, ended, .stray htoken hpiece hfront, hrest⟩

/-! ### Values as lexemes -/

/-- A piece is a sequence of lexemes in front of what follows it. -/
theorem scans_of_piece? {piece : Piece} (h : cur.piece? = .ok (some (piece, next)))
    (hurl : cur.url? = none) (htoken : AtToken cur.rest) : cur.Scans next := by
  obtain ⟨taken, hreads, -⟩ := Cursor.reads_piece? h
  rcases Cursor.whole_of_piece? h hreads hurl with hwhole | ⟨-, rfl⟩ | ⟨-, rfl, hend⟩
  · exact .of_whole hwhole hreads
  · rw [hreads.rest_eq] at htoken
    exact ⟨[.plain '/'], hreads, .plain (by decide) (by decide) htoken.2, trivial⟩
  · exact ⟨[.escape ['\\']], hreads, by rw [hend]; exact .backslash, trivial⟩

/-- The text of components without addresses is a sequence of lexemes in front of what follows. -/
theorem Reading.scans (h : Reading inFunction cur components last)
    (hurl : anyHasUrl components = false) : cur.Scans last := by
  induction h with
  | nil inFunction cur => exact .refl cur
  | separator h others ih =>
    obtain ⟨separator, hseparator, hfirst⟩ := Cursor.separator?_eq_ok_some_iff.mp h
    exact (Cursor.Scans.of_whole hseparator.whole hfirst).trans (ih hurl)
  | @token inFunction cur next last components leaf htoken h others ih =>
    simp only [anyHasUrl, Bool.or_eq_false_iff] at hurl
    have hnone : cur.url? = none := Cursor.url?_none_of_piece? h <| by
      rintro address heq
      rw [Piece.token.inj heq] at hurl
      cases hurl.1
    exact (scans_of_piece? h hnone htoken).trans (ih hurl.2)
  | function htoken h inner hclose hclosing others ihInner ih =>
    simp only [anyHasUrl, hasUrl, Bool.or_eq_false_iff] at hurl
    have hopening := scans_of_piece? h (Cursor.url?_none_of_piece? h nofun) htoken
    have hparen := scans_of_piece? hclosing (Cursor.url?_none_of_piece? hclosing nofun) hclose
    exact ((hopening.trans (ihInner hurl.1)).trans hparen).trans (ih hurl.2)
  | stray htoken h others ih =>
    simp only [anyHasUrl, hasUrl, Bool.false_or] at hurl
    exact (scans_of_piece? h (Cursor.url?_none_of_piece? h nofun) htoken).trans (ih hurl)

end Component

end WebFonts.Css
