import WebFonts.Css.Declaration

/-!
# Reading a stylesheet

A stylesheet is read by a machine that keeps the open blocks on a stack. At the top level and in
the block of a conditional at-rule it expects rules; in every other block it expects declarations,
and keeps a nested rule as it stands. `Sheet.ofText?` reads a whole text into its nodes.
-/

namespace WebFonts.Css.Sheet

open Text (size lower trim)

/-! ### Open blocks -/

/-- What stands before a block. -/
inductive Head where
  | rule (selector : String)
  | atRule (name prelude : String)
deriving Repr, DecidableEq

/-- The at-rules whose blocks hold rules. -/
def ruleHolders : List String :=
  ["media", "supports", "layer", "container", "document", "scope", "starting-style", "keyframes",
    "-webkit-keyframes", "-moz-keyframes", "-o-keyframes"]

/-- Whether the block behind a head holds rules rather than declarations. -/
def Head.holdsRules : Head → Bool
  | rule _ => false
  | atRule name _ => ruleHolders.contains name

/-- A block whose closing brace has not been read. -/
structure OpenBlock where
  head : Head
  /-- The offset of the head. -/
  start : Nat
  /-- The offset of the opening brace. -/
  brace : Nat
  /-- The nodes read before the head, the last one first. -/
  before : List Node

/-- The node of a block that ends at an offset. -/
def OpenBlock.close (block : OpenBlock) (children : List Node) (stop : Nat) : Node :=
  match block.head with
  | .rule selector => .rule selector children ⟨block.start, stop⟩
  | .atRule name prelude => .atRule name prelude (some children) ⟨block.start, stop⟩

/-- The blocks that are open, the innermost first, and the nodes read since the innermost one was
opened, the last one first. -/
structure State where
  blocks : List OpenBlock
  read : List Node

namespace State

/-- The state before anything is read. -/
def initial : State :=
  ⟨[], []⟩

/-- Whether rules are expected rather than declarations. -/
def inRules (state : State) : Bool :=
  match state.blocks with
  | [] => true
  | inner :: _ => inner.head.holdsRules

/-- The state behind a node. -/
def add (state : State) (node : Node) : State :=
  { state with read := node :: state.read }

/-- The state behind the opening brace of a block. -/
def enter (state : State) (head : Head) (start brace : Nat) : State :=
  ⟨⟨head, start, brace, state.read⟩ :: state.blocks, []⟩

end State

/-! ### Rules -/

/-- The state behind a step, and where the step ended. -/
abbrev Step := Except Fault (State × Cursor)

/-- The characters that end a prelude or a statement. -/
def stops : List Char :=
  ['{', ';', '}']

/-- Reads an at-rule up to its opening brace, or to its end when it has no block. -/
def readAtRule (state : State) (cur named : Cursor) : Step :=
  match named.identifier? with
  | none => named.fail .missingAtName
  | some (name, next) => do
    let name := lower (String.ofList (unescape name))
    let (prelude, stop) ← next.upTo stops 0
    let prelude := String.ofList (trim prelude)
    match stop.char? '{' with
    | some inside => return (state.enter (.atRule name prelude) cur.offset stop.offset, inside)
    | none =>
      let last := (stop.char? ';').getD stop
      return (state.add (.atRule name prelude none ⟨cur.offset, last.offset⟩), last)

/-- Reads a selector and the opening brace behind it. -/
def readSelector (state : State) (cur : Cursor) : Step := do
  let (selector, stop) ← cur.upTo stops 0
  match stop.char? '{' with
  | some inside =>
    return (state.enter (.rule (String.ofList (trim selector))) cur.offset stop.offset, inside)
  | none => stop.fail .missingBlock

/-- Passes over `<!--` or `-->`. -/
def skipMark? (cur : Cursor) : Option Cursor :=
  match cur.rest with
  | '<' :: '!' :: '-' :: '-' :: rest => some (cur.pass ['<', '!', '-', '-'] rest)
  | '-' :: '-' :: '>' :: rest => some (cur.pass ['-', '-', '>'] rest)
  | _ => none

/-- Reads the beginning of a rule or an at-rule. The marks `<!--` and `-->` are passed over outside
every block. -/
def readRule (state : State) (cur : Cursor) : Step :=
  match if state.blocks.isEmpty then skipMark? cur else none with
  | some next => .ok (state, next)
  | none =>
    match cur.char? '@' with
    | some named => readAtRule state cur named
    | none => readSelector state cur

/-! ### Declarations -/

/-- Reads a statement among declarations. A statement that a block follows is kept as it stands,
and so is one that begins with `@`. -/
def readStatement (state : State) (cur : Cursor) : Step := do
  let (statement, stop) ← cur.upTo stops 0
  match stop.rest with
  | '{' :: _ =>
    let (block, last) ← stop.block
    let raw := ⟨String.ofList (statement ++ block), ⟨cur.offset, last.offset⟩⟩
    return (state.add (.raw raw), last)
  | _ =>
    match statement with
    | '@' :: _ =>
      return (state.add (.raw ⟨String.ofList statement, ⟨cur.offset, stop.offset⟩⟩), stop)
    | _ =>
      let declaration ← Declaration.ofStatement? ⟨cur.offset, statement⟩
      return (state.add (.declaration declaration), stop)

/-! ### Every step passes over some text -/

variable {state state' : State} {cur next : Cursor}

theorem length_lt_of_readAtRule {named : Cursor} (hlt : named.rest.length < cur.rest.length)
    (h : readAtRule state cur named = .ok (state', next)) :
    next.rest.length < cur.rest.length := by
  unfold readAtRule Cursor.fail at h
  split at h
  · cases h
  · next name after hname =>
    have := (Cursor.reads_identifier? hname).1.length_le
    simp only [bind, Except.bind, pure, Except.pure] at h
    split at h
    · cases h
    · next hprelude =>
      have := Cursor.length_le_of_upTo hprelude
      split at h
      · next hbrace =>
        cases h
        have := (Cursor.reads_char? hbrace).length_le
        omega
      · cases h
        rename_i stop _ _
        cases hsemi : Cursor.char? ';' stop.2 with
        | none => simpa using by omega
        | some last =>
          have := (Cursor.reads_char? hsemi).length_le
          simpa using by omega

theorem length_lt_of_readSelector (h : readSelector state cur = .ok (state', next)) :
    next.rest.length < cur.rest.length := by
  unfold readSelector Cursor.fail at h
  simp only [bind, Except.bind, pure, Except.pure] at h
  split at h
  · cases h
  · next hselector =>
    have := Cursor.length_le_of_upTo hselector
    split at h
    · next hbrace =>
      cases h
      have := (Cursor.reads_char? hbrace).length_lt (by simp)
      omega
    · cases h

theorem length_lt_of_skipMark? (h : skipMark? cur = some next) :
    next.rest.length < cur.rest.length := by
  unfold skipMark? at h
  split at h <;> cases h
  · next hrest => simp [hrest, Cursor.pass]; omega
  · next hrest => simp [hrest, Cursor.pass]; omega

theorem length_lt_of_readRule (h : readRule state cur = .ok (state', next)) :
    next.rest.length < cur.rest.length := by
  unfold readRule at h
  split at h
  · next hmark =>
    cases h
    split at hmark
    · exact length_lt_of_skipMark? hmark
    · cases hmark
  · split at h
    · next hat =>
      exact length_lt_of_readAtRule ((Cursor.reads_char? hat).length_lt (by simp)) h
    · exact length_lt_of_readSelector h

/-- Among declarations a step passes over some text, unless a brace or a semicolon stands at the
cursor. -/
theorem length_lt_of_readStatement (hne : cur.rest ≠ [])
    (hclose : ∀ rest, cur.rest ≠ '}' :: rest) (hsemi : ∀ rest, cur.rest ≠ ';' :: rest)
    (h : readStatement state cur = .ok (state', next)) :
    next.rest.length < cur.rest.length := by
  unfold readStatement at h
  simp only [bind, Except.bind, pure, Except.pure] at h
  split at h
  · cases h
  · next found hupTo =>
    obtain ⟨statement, stop⟩ := found
    have hreads := Cursor.reads_upTo hupTo
    dsimp only at h
    split at h
    · split at h <;> cases h
      next hblock =>
        obtain ⟨hblockReads, hblockNe⟩ := Cursor.reads_block hblock
        have := hreads.length_le
        have := hblockReads.length_lt hblockNe
        omega
    · next hbrace =>
      have hlt : stop.rest.length < cur.rest.length := by
        refine hreads.length_lt fun hnil => ?_
        subst hnil
        have hrest : cur.rest = stop.rest := by simpa using hreads.rest_eq
        rcases Cursor.stop_of_upTo hupTo with hend | ⟨c, rest, hc, hmem⟩
        · exact hne (hrest.trans hend)
        · simp only [stops, List.mem_cons, List.not_mem_nil, or_false] at hmem
          rcases hmem with rfl | rfl | rfl
          · exact hbrace _ hc
          · exact hsemi _ (hrest.trans hc)
          · exact hclose _ (hrest.trans hc)
      split at h
      · cases h; exact hlt
      · split at h <;> cases h
        exact hlt

/-! ### The machine -/

/-- Reads what stands at the cursor, behind all trivia. -/
def advance (state : State) (cur : Cursor) : Except Fault (Progress State (List Node)) :=
  match cur.rest with
  | [] =>
    match state.blocks with
    | [] => .ok (.done state.read.reverse)
    | inner :: _ => .error ⟨.unterminatedBlock, inner.brace⟩
  | '}' :: rest =>
    let next := cur.pass ['}'] rest
    match state.blocks with
    | [] => cur.fail .strayBrace
    | inner :: outer =>
      let node := inner.close state.read.reverse next.offset
      .ok (.onward ⟨outer, node :: inner.before⟩ next)
  | ';' :: rest => .ok (.onward state (cur.pass [';'] rest))
  | _ =>
    match if state.inRules then readRule state cur else readStatement state cur with
    | .error fault => .error fault
    | .ok (state', next) => .ok (.onward state' next)

/-- Reads the trivia at the cursor and what stands behind it. -/
def step (state : State) (cur : Cursor) : Except Fault (Progress State (List Node)) :=
  match cur.skipTrivia with
  | .error fault => .error fault
  | .ok cur => advance state cur

theorem advance_shortens (h : advance state cur = .ok (.onward state' next)) :
    next.rest.length < cur.rest.length := by
  unfold advance Cursor.fail at h
  split at h
  · split at h <;> cases h
  · next rest hrest =>
    split at h <;> cases h
    simp [hrest, Cursor.pass]
  · next rest hrest =>
    cases h
    simp [hrest, Cursor.pass]
  · next hne hclose hsemi =>
    split at h <;> cases h
    next hread =>
      split at hread
      · exact length_lt_of_readRule hread
      · exact length_lt_of_readStatement hne hclose hsemi hread

theorem step_shortens (h : step state cur = .ok (.onward state' next)) :
    next.rest.length < cur.rest.length := by
  unfold step at h
  split at h
  · cases h
  · next hskip =>
    have := Cursor.length_le_of_skipTrivia hskip
    have := advance_shortens h
    omega

/-- The machine that reads a stylesheet. -/
def reader : Pushdown State (List Node) :=
  ⟨step, step_shortens⟩

/-- Reads a stylesheet into its nodes. -/
def ofText? (text : String) : Except Fault (List Node) :=
  reader.run .initial (.start text.toList)

end WebFonts.Css.Sheet
