import WebFonts.Css.Sheet
import WebFonts.Proofs.Changing

/-!
# Reading the same text further on

No reader of stylesheet text looks at the offsets that it hands out. Where the text at a cursor
stands `distance` bytes further on, every reader gives the same result with its spans moved by that
distance, or the same fault moved: `reader (cur.shift distance) = moved distance … (reader cur)`.
There is one such equation for each reader, from `Cursor.lexeme?_shift` up to
`Declaration.ofStatement?_shift`. `Pushdown.run_shift` carries it from the steps of a machine to its
runs.
-/

namespace WebFonts.Css

open Text (size trimEnd trimStart)

variable {α β γ δ : Type} {distance : Nat}

/-! ### What is moved -/

/-- The same text, `distance` bytes further on. -/
def Cursor.shift (distance : Nat) (cur : Cursor) : Cursor :=
  ⟨cur.offset + distance, cur.rest⟩

/-- The same fault, `distance` bytes further on. -/
def Fault.shift (distance : Nat) (fault : Fault) : Fault :=
  ⟨fault.cause, fault.offset + distance⟩

/-- The outcome of reading a text `distance` bytes further on: the result moved by `move`, or the
fault moved. -/
def moved (distance : Nat) (move : α → β) : Except Fault α → Except Fault β
  | .ok result => .ok (move result)
  | .error fault => .error (fault.shift distance)

@[simp] theorem moved_ok (move : α → β) (result : α) :
    moved distance move (.ok result) = .ok (move result) := rfl

@[simp] theorem moved_error (move : α → β) (fault : Fault) :
    moved distance move (.error fault) = .error (fault.shift distance) := rfl

theorem moved_bind {move : α → β} {move' : γ → δ} {first : Except Fault α}
    {next : α → Except Fault γ} {next' : β → Except Fault δ}
    (h : ∀ result, next' (move result) = moved distance move' (next result)) :
    (moved distance move first >>= next') = moved distance move' (first >>= next) := by
  cases first with
  | ok result => exact h result
  | error fault => rfl

theorem toOption_moved (move : α → β) (outcome : Except Fault α) :
    (moved distance move outcome).toOption = outcome.toOption.map move := by
  cases outcome <;> rfl

theorem option_bind_map {move : α → β} {move' : γ → δ} {first : Option α}
    {next : α → Option γ} {next' : β → Option δ}
    (h : ∀ result, first = some result → next' (move result) = (next result).map move') :
    (first.map move >>= next') = (first >>= next).map move' := by
  cases first with
  | some result => exact h result rfl
  | none => rfl

namespace Cursor

variable {cur : Cursor}

@[simp] theorem shift_offset : (cur.shift distance).offset = cur.offset + distance := rfl

@[simp] theorem shift_rest : (cur.shift distance).rest = cur.rest := rfl

@[simp] theorem shift_mk (offset : Nat) (rest : List Char) :
    (mk offset rest).shift distance = ⟨offset + distance, rest⟩ := rfl

theorem pass_shift (taken rest : List Char) :
    (cur.shift distance).pass taken rest = (cur.pass taken rest).shift distance := by
  simp only [pass, shift, Nat.add_right_comm]

theorem fail_shift (cause : Cause) (move : α → β) :
    (cur.shift distance).fail cause = moved distance move (cur.fail cause) :=
  rfl

/-! ### Lexemes and trivia -/

theorem lexeme?_shift :
    (cur.shift distance).lexeme? =
      moved distance (Option.map (Prod.map id (shift distance))) cur.lexeme? := by
  unfold lexeme?
  rw [shift_rest]
  simp only [pass_shift, fail_shift _ (Option.map (Prod.map id (shift distance)))]
  split
  · rfl
  · split <;> rfl
  · rfl
  · rfl
  · split
    · split <;> rfl
    · rfl

theorem separator?_shift :
    (cur.shift distance).separator? =
      moved distance (Option.map (shift distance)) cur.separator? := by
  unfold separator?
  rw [shift_rest]
  simp only [pass_shift, fail_shift _ (Option.map (shift distance))]
  split
  · split <;> rfl
  · split <;> rfl
  · rfl

theorem skipTrivia_shift :
    (cur.shift distance).skipTrivia = moved distance (shift distance) cur.skipTrivia := by
  fun_induction skipTrivia cur
  all_goals
    rw [skipTrivia.eq_def]
    split <;> simp_all [separator?_shift]

/-! ### Pieces of values -/

theorem name_shift : (cur.shift distance).name = Prod.map id (shift distance) cur.name := by
  simp only [name, pass_shift, shift_rest, Prod.map, id]

theorem identifier?_shift :
    (cur.shift distance).identifier? = cur.identifier?.map (Prod.map id (shift distance)) := by
  unfold identifier?
  rw [shift_rest, name_shift]
  split <;> rfl

theorem numeral?_shift :
    (cur.shift distance).numeral? = cur.numeral?.map (Prod.map id (shift distance)) := by
  unfold numeral?
  simp only [shift_rest, pass_shift]
  split <;> rfl

theorem char?_shift (c : Char) :
    (cur.shift distance).char? c = (cur.char? c).map (shift distance) := by
  unfold char?
  simp only [shift_rest, pass_shift]
  split
  · split <;> rfl
  · rfl

theorem word?_shift (word : List Char) :
    (cur.shift distance).word? word = (cur.word? word).map (shift distance) := by
  unfold word?
  simp only [shift_rest, pass_shift]
  split <;> rfl

theorem quoted?_shift :
    (cur.shift distance).quoted? = cur.quoted?.map (Prod.map id (shift distance)) := by
  unfold quoted?
  rw [lexeme?_shift]
  cases cur.lexeme? with
  | error fault => rfl
  | ok found =>
    rcases found with _ | ⟨lexeme, next⟩
    · rfl
    · cases lexeme <;> rfl

theorem address?_shift :
    (cur.shift distance).address? = cur.address?.map (Prod.map id (shift distance)) := by
  unfold address?
  rw [shift_rest, quoted?_shift]
  split
  · rfl
  · simp only [bareAddress, shift_rest, pass_shift, Option.map_some, Prod.map, id]

theorem url?_shift :
    (cur.shift distance).url? = cur.url?.map (Prod.map id (shift distance)) := by
  unfold url?
  rw [word?_shift]
  refine option_bind_map fun inside _ => ?_
  rw [skipTrivia_shift, toOption_moved]
  refine option_bind_map fun begun _ => ?_
  rw [address?_shift]
  refine option_bind_map fun found _ => ?_
  dsimp only [Prod.map]
  rw [skipTrivia_shift, toOption_moved]
  refine option_bind_map fun close _ => ?_
  rw [char?_shift]
  exact option_bind_map fun next _ => rfl

theorem numeric?_shift :
    (cur.shift distance).numeric? = cur.numeric?.map (Prod.map id (shift distance)) := by
  unfold numeric?
  rw [numeral?_shift]
  refine option_bind_map fun found _ => ?_
  dsimp only [Prod.map]
  rw [char?_shift, identifier?_shift]
  cases found.2.char? '%' with
  | some last => rfl
  | none => cases found.2.identifier? <;> rfl

theorem word_shift (name : List Char) :
    (cur.shift distance).word name = Prod.map id (shift distance) (cur.word name) := by
  unfold word
  rw [char?_shift]
  cases cur.char? '(' <;> rfl

theorem otherPiece_shift (c : Char) (rest : List Char) :
    (cur.shift distance).otherPiece c rest =
      Prod.map id (shift distance) (cur.otherPiece c rest) := by
  unfold otherPiece
  rw [url?_shift, numeric?_shift, identifier?_shift, pass_shift]
  cases cur.url? with
  | some found => rfl
  | none =>
    cases cur.numeric? with
    | some found => rfl
    | none =>
      cases cur.identifier? with
      | none => rfl
      | some found => exact word_shift found.1

theorem piece?_shift :
    (cur.shift distance).piece? =
      moved distance (Option.map (Prod.map id (shift distance))) cur.piece? := by
  unfold piece?
  rw [shift_rest]
  cases cur.rest with
  | nil => rfl
  | cons c rest =>
    simp only [pass_shift, name_shift, otherPiece_shift, quoted?_shift]
    split
    · cases cur.quoted? <;> rfl
    · split <;> rfl

/-! ### Stretches of text -/

theorem upTo_shift (stops : List Char) (depth : Nat) :
    (cur.shift distance).upTo stops depth =
      moved distance (Prod.map id (shift distance)) (cur.upTo stops depth) := by
  fun_induction upTo stops depth cur
  all_goals
    rw [upTo.eq_def]
    split <;> simp_all [lexeme?_shift]

theorem closeBlock_shift (brace depth : Nat) :
    (cur.shift distance).closeBlock (brace + distance) depth =
      moved distance (Prod.map id (shift distance)) (cur.closeBlock brace depth) := by
  fun_induction closeBlock brace depth cur
  case case1 => rw [closeBlock]; rfl
  all_goals
    rw [closeBlock.eq_def]
    dsimp only
    split <;> simp_all [upTo_shift, Fault.shift, Nat.add_right_comm]

theorem block_shift :
    (cur.shift distance).block = moved distance (Prod.map id (shift distance)) cur.block := by
  unfold block
  rw [shift_rest]
  cases cur.rest with
  | nil => rfl
  | cons c rest =>
    simp only [pass_shift, shift_offset, closeBlock_shift]
    exact moved_bind fun _ => rfl

end Cursor

/-! ### Machines -/

section Pushdown

variable {σ : Type}

/-- What a step leads to that reads the same text further on. -/
def Progress.shift (distance : Nat) (move : σ → σ) (finish : α → α) :
    Progress σ α → Progress σ α
  | done result => done (finish result)
  | onward state next => onward (move state) (next.shift distance)

/-- A machine reads the same text further on if each of its steps does. -/
theorem Pushdown.run_shift (machine : Pushdown σ α) {move : σ → σ} {finish : α → α}
    (hstep : ∀ state cur, machine.step (move state) (cur.shift distance) =
      moved distance (Progress.shift distance move finish) (machine.step state cur))
    (state : σ) (cur : Cursor) :
    machine.run (move state) (cur.shift distance) =
      moved distance finish (machine.run state cur) := by
  fun_induction run machine state cur with
  | case1 state cur fault h => exact run_of_error (by rw [hstep, h, moved_error])
  | case2 state cur result h => exact run_of_done (by rw [hstep, h, moved_ok, Progress.shift])
  | case3 state cur state' next h ih =>
    rw [run_of_onward (by rw [hstep, h, moved_ok, Progress.shift]), ih]

end Pushdown

/-! ### Components -/

theorem Span.shift_shift (distance distance' : Nat) (span : Span) :
    (span.shift distance).shift distance' = span.shift (distance + distance') := by
  simp only [shift, Nat.add_assoc]

namespace Component

mutual

/-- The same component, `distance` bytes further on. -/
def shift (distance : Nat) : Component → Component
  | token span leaf => token (span.shift distance) leaf
  | function span name arguments =>
    function (span.shift distance) name (shiftAll distance arguments)

/-- The same components, `distance` bytes further on. -/
def shiftAll (distance : Nat) : List Component → List Component
  | [] => []
  | component :: components => component.shift distance :: shiftAll distance components

end

theorem shiftAll_eq_map (components : List Component) :
    shiftAll distance components = components.map (shift distance) := by
  induction components with
  | nil => rfl
  | cons component components ih => rw [shiftAll, ih, List.map_cons]

mutual

theorem shift_shift (distance distance' : Nat) (component : Component) :
    (component.shift distance).shift distance' = component.shift (distance + distance') := by
  match component with
  | .token span leaf => rw [shift, shift, shift, Span.shift_shift]
  | .function span name arguments =>
    rw [shift, shift, shift, Span.shift_shift, shiftAll_shiftAll]

theorem shiftAll_shiftAll (distance distance' : Nat) (components : List Component) :
    shiftAll distance' (shiftAll distance components) =
      shiftAll (distance + distance') components := by
  match components with
  | [] => rfl
  | component :: others => rw [shiftAll, shiftAll, shiftAll, shift_shift, shiftAll_shiftAll]

end

/-- The same open function, `distance` bytes further on. -/
def OpenFunction.shift (distance : Nat) (opened : OpenFunction) : OpenFunction :=
  ⟨opened.name, opened.start + distance, opened.before.map (Component.shift distance)⟩

/-- The state of the machine `distance` bytes further on. -/
def State.shift (distance : Nat) (state : State) : State :=
  ⟨state.functions.map (OpenFunction.shift distance), state.read.map (Component.shift distance)⟩

theorem State.push_shift (state : State) (piece : Piece) (start stop : Nat) :
    (state.shift distance).push piece (start + distance) (stop + distance) =
      (state.push piece start stop).shift distance := by
  obtain ⟨functions, read⟩ := state
  cases piece with
  | token leaf => rfl
  | opening name => rfl
  | closing =>
    cases functions with
    | nil => rfl
    | cons inner outer =>
      simp [push, shift, OpenFunction.shift, Component.shift, shiftAll_eq_map, Span.shift]

theorem step_shift (state : State) (cur : Cursor) :
    step (state.shift distance) (cur.shift distance) =
      moved distance (Progress.shift distance (State.shift distance)
        (List.map (Component.shift distance))) (step state cur) := by
  unfold step
  rw [Cursor.skipTrivia_shift]
  cases cur.skipTrivia with
  | error fault => rfl
  | ok begun =>
    dsimp only [moved_ok]
    rw [Cursor.piece?_shift]
    rcases begun.piece? with fault | _ | ⟨piece, next⟩
    · rfl
    · obtain ⟨functions, read⟩ := state
      cases functions with
      | nil => simp [State.shift, Progress.shift]
      | cons inner outer => rfl
    · simp [Progress.shift, State.push_shift]

/-- The components of a text are read further on with their spans moved. -/
theorem readAll_shift (cur : Cursor) :
    readAll (cur.shift distance) =
      moved distance (List.map (Component.shift distance)) (readAll cur) :=
  Pushdown.run_shift reader step_shift ⟨[], []⟩ cur

/-- The components of a text at an offset are those of the text alone, moved there. -/
theorem readAll_at (offset : Nat) (text : List Char) :
    readAll ⟨offset, text⟩ =
      moved offset (List.map (Component.shift offset)) (readAll (.start text)) := by
  rw [← readAll_shift, Cursor.start, Cursor.shift_mk, Nat.zero_add]

end Component

/-! ### Declarations -/

/-- The same text, `distance` bytes further on. -/
def Raw.shift (distance : Nat) (raw : Raw) : Raw :=
  ⟨raw.text, raw.span.shift distance⟩

/-- The same value, `distance` bytes further on. -/
def Value.shift (distance : Nat) : Value → Value
  | .components parts => .components (parts.map (Component.shift distance))
  | .raw text => .raw (text.shift distance)

theorem Raw.shift_shift (distance distance' : Nat) (raw : Raw) :
    (raw.shift distance).shift distance' = raw.shift (distance + distance') := by
  rw [shift, shift, shift, Span.shift_shift]

theorem Value.shift_shift (distance distance' : Nat) (value : Value) :
    (value.shift distance).shift distance' = value.shift (distance + distance') := by
  cases value with
  | raw text => rw [shift, shift, shift, Raw.shift_shift]
  | components parts =>
    simp only [shift, ← Component.shiftAll_eq_map, Component.shiftAll_shiftAll]

namespace Declaration

/-- The same declaration, `distance` bytes further on. -/
def shift (distance : Nat) (declaration : Declaration) : Declaration :=
  ⟨declaration.property, declaration.value.shift distance, declaration.important,
    declaration.span.shift distance⟩

theorem shift_shift (distance distance' : Nat) (declaration : Declaration) :
    (declaration.shift distance).shift distance' = declaration.shift (distance + distance') := by
  rw [shift, shift, shift, Value.shift_shift, Span.shift_shift]

theorem readProperty_shift (statement : Cursor) :
    readProperty (statement.shift distance) =
      moved distance (Prod.map id (Cursor.shift distance)) (readProperty statement) := by
  unfold readProperty
  rw [Cursor.char?_shift]
  cases statement.char? '*' with
  | none =>
    dsimp only [Option.map_none]
    rw [Cursor.identifier?_shift]
    cases statement.identifier? <;> rfl
  | some named =>
    dsimp only [Option.map_some]
    rw [Cursor.identifier?_shift]
    cases named.identifier? <;> rfl

theorem size_trimStart_le (text : List Char) : size (trimStart text) ≤ size text := by
  have := congrArg size (List.takeWhile_append_dropWhile (p := Text.isBlank) (l := text))
  rw [Text.size_append] at this
  rw [trimStart]
  omega

theorem readValue_shift (property : String) (cur : Cursor) (text : List Char) :
    readValue property (cur.shift distance) text =
      moved distance (Value.shift distance) (readValue property cur text) := by
  unfold readValue
  dsimp only [Cursor.shift_offset]
  split
  · have hle := size_trimStart_le (trimEnd text)
    simp only [moved_ok, Value.shift, Raw.shift, Span.shift, Except.ok.injEq, Value.raw.injEq,
      Raw.mk.injEq, Span.mk.injEq, true_and]
    omega
  · have hread : Component.readAll ⟨cur.offset + distance, trimEnd text⟩ = moved distance _ _ :=
      Component.readAll_shift ⟨cur.offset, trimEnd text⟩
    rw [hread]
    cases Component.readAll ⟨cur.offset, trimEnd text⟩ <;> rfl

theorem ofStatement?_shift (statement : Cursor) :
    ofStatement? (statement.shift distance) =
      moved distance (shift distance) (ofStatement? statement) := by
  unfold ofStatement?
  rw [readProperty_shift]
  refine moved_bind fun found => ?_
  dsimp only [Prod.map]
  rw [Cursor.skipTrivia_shift]
  refine moved_bind fun next => ?_
  rw [Cursor.char?_shift]
  cases next.char? ':' with
  | none => rfl
  | some cur =>
    dsimp only [Option.map_some, Cursor.shift_rest]
    rw [readValue_shift]
    refine moved_bind fun value => ?_
    simp [shift, Span.shift, pure, Except.pure, Nat.add_right_comm]

/-- The declaration of a statement at an offset is that of the statement alone, moved there. -/
theorem ofStatement?_at (offset : Nat) (text : List Char) :
    ofStatement? ⟨offset, text⟩ =
      moved offset (shift offset) (ofStatement? (.start text)) := by
  rw [← ofStatement?_shift, Cursor.start, Cursor.shift_mk, Nat.zero_add]

end Declaration

/-! ### Nodes -/

namespace Node

mutual

/-- The same node, `distance` bytes further on. -/
def shift (distance : Nat) : Node → Node
  | rule selector children span => rule selector (shiftIn distance children) (span.shift distance)
  | atRule name prelude (some children) span =>
    atRule name prelude (some (shiftIn distance children)) (span.shift distance)
  | atRule name prelude none span => atRule name prelude none (span.shift distance)
  | declaration inner => declaration (inner.shift distance)
  | raw text => raw (text.shift distance)

/-- The same nodes, `distance` bytes further on. -/
def shiftIn (distance : Nat) : List Node → List Node
  | [] => []
  | node :: nodes => node.shift distance :: shiftIn distance nodes

end

theorem shiftIn_eq_map (nodes : List Node) :
    shiftIn distance nodes = nodes.map (shift distance) := by
  induction nodes with
  | nil => rfl
  | cons node nodes ih => rw [shiftIn, ih, List.map_cons]

mutual

theorem shift_eq_change (node : Node) :
    node.shift distance =
      node.change ⟨Span.shift distance, Declaration.shift distance, Raw.shift distance⟩ := by
  match node with
  | .rule selector children span => rw [shift, change, shiftIn_eq_changeIn]
  | .atRule name prelude (some children) span => rw [shift, change, shiftIn_eq_changeIn]
  | .atRule name prelude none span => rfl
  | .declaration inner => rfl
  | .raw text => rfl

theorem shiftIn_eq_changeIn (nodes : List Node) :
    shiftIn distance nodes =
      changeIn ⟨Span.shift distance, Declaration.shift distance, Raw.shift distance⟩ nodes := by
  match nodes with
  | [] => rfl
  | node :: nodes => rw [shiftIn, changeIn, shift_eq_change, shiftIn_eq_changeIn]

end

theorem shift_shift (distance distance' : Nat) (node : Node) :
    (node.shift distance).shift distance' = node.shift (distance + distance') := by
  simp only [shift_eq_change]
  exact change_change (Span.shift_shift _ _) (Declaration.shift_shift _ _) (Raw.shift_shift _ _)
    node

/-- Nodes behind a part of a text that is moved. -/
theorem map_shift_shift (distance distance' : Nat) (nodes : List Node) :
    (nodes.map (shift distance)).map (shift distance') =
      nodes.map (shift (distance' + distance)) := by
  rw [List.map_map, Nat.add_comm]
  exact List.map_congr_left fun node _ => shift_shift distance distance' node

end Node

end WebFonts.Css
