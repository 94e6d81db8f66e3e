import WebFonts.Proofs.Concatenation

/-!
# Nodes at other offsets

`Node.relocate` moves every offset in a node by a function and changes the text that the tree keeps
as it stands. A shift is the case in which every offset grows by as much. Nodes that were shifted
are then shifted by another distance if the function says so of the offsets behind them
(`Node.relocate_shift`), and nodes whose offsets are left alone stay the same
(`Sheet.Reading.relocate_eq`). So a function that moves what stands behind a place leaves what is
read in front of it, and moves the rest as a whole.
-/

namespace WebFonts.Css

open Text (size)
open Cursor (Reads)

/-! ### Relocation -/

/-- The span with both ends moved. -/
def Span.relocate (move : Nat → Nat) (span : Span) : Span :=
  ⟨move span.start, move span.stop⟩

namespace Component

mutual

/-- The component with all offsets moved. -/
def relocate (move : Nat → Nat) : Component → Component
  | token span leaf => token (span.relocate move) leaf
  | function span name arguments =>
    function (span.relocate move) name (relocateAll move arguments)

/-- The components with all offsets moved. -/
def relocateAll (move : Nat → Nat) : List Component → List Component
  | [] => []
  | component :: components => component.relocate move :: relocateAll move components

end

theorem relocateAll_eq_map {move : Nat → Nat} (components : List Component) :
    relocateAll move components = components.map (relocate move) := by
  induction components with
  | nil => rfl
  | cons component components ih => rw [relocateAll, ih, List.map_cons]

end Component

/-- The same text with its span moved. -/
def Raw.relocate (move : Nat → Nat) (raw : Raw) : Raw :=
  ⟨raw.text, raw.span.relocate move⟩

/-- The value with all offsets moved. -/
def Value.relocate (move : Nat → Nat) : Value → Value
  | .components parts => .components (parts.map (Component.relocate move))
  | .raw text => .raw (text.relocate move)

/-- The declaration with all offsets moved. -/
def Declaration.relocate (move : Nat → Nat) (declaration : Declaration) : Declaration :=
  ⟨declaration.property, declaration.value.relocate move, declaration.important,
    declaration.span.relocate move⟩

namespace Node

mutual

/-- The node with all offsets moved, and with a change to the nested rules in it. -/
def relocate (move : Nat → Nat) (edit : Raw → Raw) : Node → Node
  | rule selector children span =>
    rule selector (relocateIn move edit children) (span.relocate move)
  | atRule name prelude (some children) span =>
    atRule name prelude (some (relocateIn move edit children)) (span.relocate move)
  | atRule name prelude none span => atRule name prelude none (span.relocate move)
  | declaration inner => declaration (inner.relocate move)
  | raw text => raw (edit text)

/-- The nodes with all offsets moved, and with a change to the nested rules in them. -/
def relocateIn (move : Nat → Nat) (edit : Raw → Raw) : List Node → List Node
  | [] => []
  | node :: nodes => node.relocate move edit :: relocateIn move edit nodes

end

theorem relocateIn_eq_map {move : Nat → Nat} {edit : Raw → Raw} (nodes : List Node) :
    relocateIn move edit nodes = nodes.map (relocate move edit) := by
  induction nodes with
  | nil => rfl
  | cons node nodes ih => rw [relocateIn, ih, List.map_cons]

mutual

theorem relocate_eq_change {move : Nat → Nat} {edit : Raw → Raw} (node : Node) :
    node.relocate move edit =
      node.change ⟨Span.relocate move, Declaration.relocate move, edit⟩ := by
  match node with
  | .rule selector children span => rw [relocate, change, relocateIn_eq_changeIn]
  | .atRule name prelude (some children) span => rw [relocate, change, relocateIn_eq_changeIn]
  | .atRule name prelude none span => rfl
  | .declaration inner => rfl
  | .raw text => rfl

theorem relocateIn_eq_changeIn {move : Nat → Nat} {edit : Raw → Raw} (nodes : List Node) :
    relocateIn move edit nodes =
      changeIn ⟨Span.relocate move, Declaration.relocate move, edit⟩ nodes := by
  match nodes with
  | [] => rfl
  | node :: nodes => rw [relocateIn, changeIn, relocate_eq_change, relocateIn_eq_changeIn]

end

end Node

theorem Sheet.Head.relocate_node {move : Nat → Nat} {edit : Raw → Raw} (head : Head)
    (children : List Node) (span : Span) :
    (head.node children span).relocate move edit =
      head.node (children.map (Node.relocate move edit)) (span.relocate move) := by
  cases head <;> rw [Head.node, Head.node, Node.relocate, Node.relocateIn_eq_map]

/-! ### Relocation behind a shift -/

section Shift

variable {move : Nat → Nat} {edit : Raw → Raw} {distance distance' : Nat}

theorem Span.relocate_shift (hmove : ∀ offset, move (offset + distance) = offset + distance')
    (span : Span) : (span.shift distance).relocate move = span.shift distance' := by
  rw [shift, relocate, shift, hmove, hmove]

mutual

theorem Component.relocate_shift (hmove : ∀ offset, move (offset + distance) = offset + distance')
    (component : Component) :
    (component.shift distance).relocate move = component.shift distance' := by
  match component with
  | .token span leaf => rw [shift, relocate, shift, Span.relocate_shift hmove]
  | .function span name arguments =>
    rw [shift, relocate, shift, Span.relocate_shift hmove, relocateAll_shiftAll hmove]

theorem Component.relocateAll_shiftAll
    (hmove : ∀ offset, move (offset + distance) = offset + distance')
    (components : List Component) :
    relocateAll move (shiftAll distance components) = shiftAll distance' components := by
  match components with
  | [] => rfl
  | component :: others =>
    rw [shiftAll, relocateAll, shiftAll, relocate_shift hmove, relocateAll_shiftAll hmove]

end

theorem Raw.relocate_shift (hmove : ∀ offset, move (offset + distance) = offset + distance')
    (raw : Raw) : (raw.shift distance).relocate move = raw.shift distance' := by
  rw [shift, relocate, shift, Span.relocate_shift hmove]

theorem Declaration.relocate_shift
    (hmove : ∀ offset, move (offset + distance) = offset + distance') (declaration : Declaration) :
    (declaration.shift distance).relocate move = declaration.shift distance' := by
  obtain ⟨property, value, important, span⟩ := declaration
  have hvalue : (value.shift distance).relocate move = value.shift distance' := by
    cases value with
    | raw text => rw [Value.shift, Value.relocate, Value.shift, Raw.relocate_shift hmove]
    | components parts =>
      rw [Value.shift, Value.relocate, Value.shift, ← Component.shiftAll_eq_map,
        ← Component.relocateAll_eq_map, Component.relocateAll_shiftAll hmove,
        Component.shiftAll_eq_map]
  rw [shift, relocate, shift, hvalue, Span.relocate_shift hmove]

theorem Node.relocate_shift (hmove : ∀ offset, move (offset + distance) = offset + distance')
    (hedit : ∀ raw : Raw, edit (raw.shift distance) = raw.shift distance') (node : Node) :
    (node.shift distance).relocate move edit = node.shift distance' := by
  rw [shift_eq_change, shift_eq_change, relocate_eq_change]
  exact change_change (Span.relocate_shift hmove) (Declaration.relocate_shift hmove) hedit node

/-- Nodes behind a place are moved as a whole. -/
theorem Node.map_relocate_shift
    (hmove : ∀ offset, move (offset + distance) = offset + distance')
    (hedit : ∀ raw : Raw, edit (raw.shift distance) = raw.shift distance') (nodes : List Node) :
    (nodes.map (shift distance)).map (relocate move edit) = nodes.map (shift distance') := by
  rw [List.map_map]
  exact List.map_congr_left fun node _ => node.relocate_shift hmove hedit

end Shift

/-! ### Offsets that are left alone -/

section Fixed

variable {source : String} {move : Nat → Nat} {edit : Raw → Raw} {cur last : Cursor}

theorem Span.relocate_eq {span : Span} (hstart : move span.start = span.start)
    (hstop : move span.stop = span.stop) : span.relocate move = span := by
  rw [relocate, hstart, hstop]

theorem Span.relocate_eq_of_reads {next : Cursor} {front back : List Char}
    (hfront : Reads cur front next) (hback : Reads next back last)
    (hmove : ∀ offset ≤ last.offset, move offset = offset) :
    (Span.mk cur.offset next.offset).relocate move = ⟨cur.offset, next.offset⟩ :=
  relocate_eq (hmove _ (hfront.offset_le.trans hback.offset_le))
    (hmove _ hback.offset_le)

theorem Component.Reading.relocate_eq {inFunction : Bool} {components : List Component}
    (h : Reading inFunction cur components last)
    (hmove : ∀ offset ≤ last.offset, move offset = offset) :
    components.map (relocate move) = components := by
  induction h with
  | nil => rfl
  | separator h others ih => exact ih hmove
  | token htoken h others ih =>
    obtain ⟨taken, hothers⟩ := others.reads
    obtain ⟨piece, hfirst, -⟩ := Cursor.reads_piece? h
    rw [List.map_cons, ih hmove, relocate, Span.relocate_eq_of_reads hfirst hothers hmove]
  | function htoken h inner hclose hclosing others ihInner ihOthers =>
    obtain ⟨taken, hothers⟩ := others.reads
    obtain ⟨opening, hopening, -⟩ := Cursor.reads_piece? h
    obtain ⟨arguments, hinner⟩ := inner.reads
    obtain ⟨closing, hclosing, -⟩ := Cursor.reads_piece? hclosing
    have harguments := ihInner fun offset hle =>
      hmove offset (hle.trans (hclosing.trans hothers).offset_le)
    rw [List.map_cons, ihOthers hmove, relocate, relocateAll_eq_map, harguments,
      Span.relocate_eq_of_reads ((hopening.trans hinner).trans hclosing) hothers hmove]
  | stray htoken h others ih =>
    obtain ⟨taken, hothers⟩ := others.reads
    obtain ⟨piece, hfirst, -⟩ := Cursor.reads_piece? h
    rw [List.map_cons, ih hmove, relocate, Span.relocate_eq_of_reads hfirst hothers hmove]

theorem Declaration.relocate_eq {declaration : Declaration} {offset : Nat} {text : List Char}
    (h : ofStatement? ⟨offset, text⟩ = .ok declaration)
    (hmove : ∀ other ≤ offset + size text, move other = other) :
    declaration.relocate move = declaration := by
  obtain ⟨front, rest, htext, -, hvalue, -, hspan⟩ := exists_heading h
  dsimp only at htext hvalue hspan
  have hvalueEq : declaration.value.relocate move = declaration.value := by
    cases hparts : declaration.value with
    | components parts =>
      obtain ⟨begun, last, hreading, -, hlast⟩ := exists_reading h hparts
      rw [Value.relocate, hreading.relocate_eq fun other hle => hmove other (hle.trans hlast)]
    | raw raw =>
      rw [hparts] at hvalue
      obtain ⟨leading, kept, trailing, hkept, -, hrawSpan⟩ := value_eq_raw hvalue
      obtain ⟨mark, hmark⟩ := cutImportant_append_eq rest
      have hsize := congrArg size htext
      rw [← hmark, hkept] at hsize
      simp only [Text.size_append] at hsize
      have hraw : raw.span.relocate move = raw.span := by
        rw [hrawSpan]
        exact Span.relocate_eq (hmove _ (by dsimp only; omega)) (hmove _ (by dsimp only; omega))
      rw [Value.relocate, Raw.relocate, hraw]
  obtain ⟨blanks, hblanks, -⟩ := Text.trimEnd_append text
  have hsize := congrArg size hblanks
  rw [Text.size_append] at hsize
  have hspanEq : declaration.span.relocate move = declaration.span := by
    rw [hspan]
    exact Span.relocate_eq (hmove _ (by dsimp only; omega)) (hmove _ (by dsimp only; omega))
  rw [relocate, hvalueEq, hspanEq]

namespace Sheet

variable {place : Place}

theorem Leaf.relocate_eq {node : Node} (h : Leaf cur place node last)
    (hmove : ∀ offset ≤ last.offset, move offset = offset)
    (hedit : ∀ raw : Raw, raw.span.start ≤ last.offset → raw.span.stop ≤ last.offset →
      edit raw = raw) :
    node.relocate move edit = node := by
  obtain ⟨taken, hreads⟩ := h.reads
  have hle := hreads.offset_le
  cases h with
  | atRule => rw [Node.relocate, Span.relocate_eq (hmove _ hle) (hmove _ le_rfl)]
  | block => rw [Node.relocate, hedit _ hle le_rfl]
  | statement => rw [Node.relocate, hedit _ hle le_rfl]
  | declaration hstatement _ _ h =>
    have hlast := (Cursor.reads_upTo hstatement).offset_eq
    rw [Node.relocate, Declaration.relocate_eq h fun other hother => hmove other (hlast ▸ hother)]

/-- Nodes that are read in front of everything that is moved stay as they are. -/
theorem Reading.relocate_eq {nodes : List Node} (h : Reading place cur nodes last)
    (hmove : ∀ offset ≤ last.offset, move offset = offset)
    (hedit : ∀ raw : Raw, raw.span.start ≤ last.offset → raw.span.stop ≤ last.offset →
      edit raw = raw) :
    nodes.map (Node.relocate move edit) = nodes := by
  induction h with
  | nil => rfl
  | separator h others ih => exact ih hmove hedit
  | semicolon h others ih => exact ih hmove hedit
  | mark h others ih => exact ih hmove hedit
  | leaf hbegins h others ih =>
    obtain ⟨taken, hothers⟩ := others.reads
    have hle := hothers.offset_le
    rw [List.map_cons, ih hmove hedit,
      h.relocate_eq (fun offset hoffset => hmove offset (hoffset.trans hle))
        fun raw hstart hstop => hedit raw (hstart.trans hle) (hstop.trans hle)]
  | block hplace hbegins h inner hclose others ihInner ih =>
    obtain ⟨text, hhead, hopening⟩ := h.reads
    obtain ⟨children, hinner⟩ := inner.reads
    obtain ⟨taken, hothers⟩ := others.reads
    have hle := (hclose.trans hothers).offset_le
    have hchildren := ihInner (fun offset hoffset => hmove offset (hoffset.trans hle))
      fun raw hstart hstop => hedit raw (hstart.trans hle) (hstop.trans hle)
    rw [List.map_cons, ih hmove hedit, Head.relocate_node, hchildren,
      Span.relocate_eq_of_reads (((hhead.trans hopening).trans hinner).trans hclose) hothers hmove]

end Sheet

end Fixed

end WebFonts.Css
