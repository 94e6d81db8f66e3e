import WebFonts.Proofs.Shifting
import WebFonts.Proofs.Weaving

/-!
# A stylesheet behind another one

`ofText?_append`: where a stylesheet does not end with a statement, whatever text stands behind it
is read as if it stood alone, only further on.

The two halves of the text are looked at separately. The front is read in the same way whatever
follows it (`Reading.recut`): what its last node depends on is inside this node or, for gaps and
marks, behind no node at all. Then the machine stands at the begin of the second half with all nodes
of the first one read. From there its states are those of reading the second half alone, moved and
with these nodes below them (`State.behind`), which every step preserves (`step_shift`), hence every
run (`run_behind`), the runs that fail included.
-/

namespace WebFonts.Css.Sheet

open Text (size lower trim)
open Cursor (Reads)

variable {distance : Nat} {below : List Node}

theorem shift_node (head : Head) (children : List Node) (span : Span) :
    (head.node children span).shift distance =
      head.node (children.map (Node.shift distance)) (span.shift distance) := by
  cases head <;> rw [Head.node, Head.node, Node.shift, Node.shiftIn_eq_map]

/-! ### The machine further on -/

/-- The open blocks and the nodes of a machine that reads the same text `distance` bytes further on,
with nodes `below` everything that it has read. -/
def behind (distance : Nat) (below : List Node) : List OpenBlock → List Node → State
  | [], read => ⟨[], read.map (Node.shift distance) ++ below⟩
  | inner :: outer, read =>
    let under := behind distance below outer inner.before
    ⟨⟨inner.head, inner.start + distance, inner.brace + distance, under.read⟩ :: under.blocks,
      read.map (Node.shift distance)⟩

namespace State

/-- The state of a machine that reads the same text `distance` bytes further on, with nodes `below`
everything that it has read. -/
def behind (distance : Nat) (below : List Node) (state : State) : State :=
  Sheet.behind distance below state.blocks state.read

variable (state : State)

theorem behind_add (node : Node) :
    (state.add node).behind distance below =
      (state.behind distance below).add (node.shift distance) := by
  obtain ⟨blocks, read⟩ := state
  cases blocks <;> rfl

theorem isEmpty_blocks_behind :
    (state.behind distance below).blocks.isEmpty = state.blocks.isEmpty := by
  obtain ⟨blocks, read⟩ := state
  cases blocks <;> rfl

theorem inRules_behind : (state.behind distance below).inRules = state.inRules := by
  obtain ⟨blocks, read⟩ := state
  cases blocks <;> rfl

/-- The node of a block that is closed further on. -/
theorem shift_close (block : OpenBlock) (children : List Node) (stop : Nat) :
    (block.close children stop).shift distance =
      block.head.node (children.map (Node.shift distance))
        ⟨block.start + distance, stop + distance⟩ := by
  rw [OpenBlock.close_eq, shift_node, Span.shift]

theorem behind_close (inner : OpenBlock) (outer : List OpenBlock) (read : List Node) (stop : Nat) :
    behind distance below ⟨outer, inner.close read.reverse stop :: inner.before⟩ =
      let under := Sheet.behind distance below outer inner.before
      ⟨under.blocks,
        OpenBlock.close ⟨inner.head, inner.start + distance, inner.brace + distance, under.read⟩
          (read.map (Node.shift distance)).reverse (stop + distance) :: under.read⟩ := by
  have hadd : (add ⟨outer, inner.before⟩ (inner.close read.reverse stop)).behind distance below =
      _ := behind_add _ _
  rw [shift_close, List.map_reverse] at hadd
  rw [OpenBlock.close_eq]
  exact hadd

end State

section Steps

variable (state : State) (cur : Cursor)

theorem readAtRule_shift (named : Cursor) :
    readAtRule (state.behind distance below) (cur.shift distance) (named.shift distance) =
      moved distance (Prod.map (State.behind distance below) (Cursor.shift distance))
        (readAtRule state cur named) := by
  unfold readAtRule
  rw [Cursor.identifier?_shift]
  rcases named.identifier? with _ | ⟨name, next⟩
  · rfl
  · dsimp only [Option.map_some, Prod.map, id]
    rw [Cursor.upTo_shift]
    refine moved_bind fun found => ?_
    obtain ⟨prelude, stop⟩ := found
    dsimp only [Prod.map, id]
    rw [Cursor.char?_shift, Cursor.char?_shift]
    cases stop.char? '{' with
    | some inside => rfl
    | none =>
      cases stop.char? ';' <;>
        simp [pure, Except.pure, State.behind_add, Node.shift, Span.shift]

theorem readSelector_shift :
    readSelector (state.behind distance below) (cur.shift distance) =
      moved distance (Prod.map (State.behind distance below) (Cursor.shift distance))
        (readSelector state cur) := by
  unfold readSelector
  rw [Cursor.upTo_shift]
  refine moved_bind fun found => ?_
  obtain ⟨selector, stop⟩ := found
  dsimp only [Prod.map, id]
  rw [Cursor.char?_shift]
  cases stop.char? '{' <;> rfl

theorem skipMark?_shift :
    skipMark? (cur.shift distance) = (skipMark? cur).map (Cursor.shift distance) := by
  unfold skipMark?
  simp only [Cursor.shift_rest, Cursor.pass_shift]
  split <;> rfl

theorem readRule_shift :
    readRule (state.behind distance below) (cur.shift distance) =
      moved distance (Prod.map (State.behind distance below) (Cursor.shift distance))
        (readRule state cur) := by
  unfold readRule
  rw [State.isEmpty_blocks_behind, skipMark?_shift, Cursor.char?_shift]
  have hmark :
      (if state.blocks.isEmpty then (skipMark? cur).map (Cursor.shift distance) else none) =
      (if state.blocks.isEmpty then skipMark? cur else none).map (Cursor.shift distance) := by
    split <;> rfl
  rw [hmark]
  cases (if state.blocks.isEmpty then skipMark? cur else none) with
  | some next => rfl
  | none =>
    cases cur.char? '@' with
    | some named => exact readAtRule_shift state cur named
    | none => exact readSelector_shift state cur

theorem readStatement_shift :
    readStatement (state.behind distance below) (cur.shift distance) =
      moved distance (Prod.map (State.behind distance below) (Cursor.shift distance))
        (readStatement state cur) := by
  unfold readStatement
  rw [Cursor.upTo_shift]
  refine moved_bind fun found => ?_
  obtain ⟨statement, stop⟩ := found
  dsimp only [Prod.map, id, Cursor.shift_rest]
  split
  · rw [Cursor.block_shift]
    refine moved_bind fun found => ?_
    simp [pure, Except.pure, State.behind_add, Node.shift, Raw.shift, Span.shift]
  · split
    · simp [pure, Except.pure, State.behind_add, Node.shift, Raw.shift, Span.shift]
    · have hread : Declaration.ofStatement? ⟨cur.offset + distance, statement⟩ =
          moved distance _ _ := Declaration.ofStatement?_shift ⟨cur.offset, statement⟩
      rw [Cursor.shift_offset, hread]
      refine moved_bind fun declaration => ?_
      simp [pure, Except.pure, State.behind_add, Node.shift]

theorem advance_shift :
    advance (state.behind distance below) (cur.shift distance) =
      moved distance (Progress.shift distance (State.behind distance below)
        fun nodes => below.reverse ++ nodes.map (Node.shift distance)) (advance state cur) := by
  unfold advance
  rw [Cursor.shift_rest, State.inRules_behind]
  split
  · obtain ⟨blocks, read⟩ := state
    cases blocks with
    | nil => simp [State.behind, behind, Progress.shift]
    | cons inner outer => rfl
  · obtain ⟨blocks, read⟩ := state
    cases blocks with
    | nil => rfl
    | cons inner outer =>
      rw [Cursor.pass_shift]
      simp only [moved_ok, Progress.shift, State.behind_close]
      rfl
  · simp [Progress.shift, Cursor.pass_shift]
  · have hread : (if state.inRules then readRule (state.behind distance below) (cur.shift distance)
        else readStatement (state.behind distance below) (cur.shift distance)) =
        moved distance (Prod.map (State.behind distance below) (Cursor.shift distance))
          (if state.inRules then readRule state cur else readStatement state cur) := by
      split
      · exact readRule_shift state cur
      · exact readStatement_shift state cur
    rw [hread]
    cases (if state.inRules then readRule state cur else readStatement state cur) <;> rfl

theorem step_shift :
    step (state.behind distance below) (cur.shift distance) =
      moved distance (Progress.shift distance (State.behind distance below)
        fun nodes => below.reverse ++ nodes.map (Node.shift distance)) (step state cur) := by
  unfold step
  rw [Cursor.skipTrivia_shift]
  cases cur.skipTrivia with
  | error fault => rfl
  | ok begun => exact advance_shift state begun

/-- Behind nodes that are read already, a text is read as it is read alone. -/
theorem run_behind (text : List Char) :
    reader.run ⟨[], below⟩ ⟨distance, text⟩ =
      moved distance (fun nodes => below.reverse ++ nodes.map (Node.shift distance))
        (reader.run .initial (.start text)) := by
  have hrun : reader.run ⟨[], below⟩ ((Cursor.start text).shift distance) = moved distance _ _ :=
    Pushdown.run_shift reader step_shift .initial (.start text)
  rwa [Cursor.start, Cursor.shift_mk, Nat.zero_add] at hrun

end Steps

/-! ### A text in front of another one -/

section Extend

variable {source : String} {place : Place} {cur next last : Cursor} {nodes : List Node}
  {rest' : List Char}

/-- What follows a text begins as before if another text follows what is read of it. -/
theorem Reading.head?_eq {text : List Char} (h : Reading place cur nodes last)
    (hin : cur.In source) (hreads : Reads cur text last)
    (hrest : last.rest.head? = rest'.head? ∨ nodes ≠ []) :
    cur.rest.head? = (text ++ rest').head? := by
  rw [h.head?_weave (fun _ => []) hin hreads hrest 0, weaveNames_of_nil fun _ _ _ => rfl]

/-- Nodes are read in front of another text if they end with a block, or if that text begins with
the same character. At another offset they are the same nodes, moved. -/
theorem Reading.recut (h : Reading place cur nodes last) (hin : cur.In source)
    (hrest : last.rest.head? = rest'.head? ∨ Settled nodes) :
    ∃ (text : List Char) (base : List Node), Reads cur text last ∧
      nodes = base.map (Node.shift cur.offset) ∧
      ∀ offset, Reading place ⟨offset, text ++ rest'⟩ (base.map (Node.shift offset))
        ⟨offset + size text, rest'⟩ := by
  induction h generalizing rest' with
  | nil place cur => exact ⟨[], [], .refl _, rfl, fun offset => .nil _ _⟩
  | @separator place cur next last nodes h others ih =>
    obtain ⟨separator, hseparator, hfirst⟩ := Cursor.separator?_eq_ok_some_iff.mp h
    obtain ⟨text, base, hreads, rfl, hreading⟩ := ih (hin.reads hfirst) hrest
    refine ⟨separator ++ text, base.map (Node.shift (size separator)), hfirst.trans hreads, ?_,
      fun offset => ?_⟩
    · rw [Node.map_shift_shift, hfirst.offset_eq]
    · rw [Node.map_shift_shift, Text.size_append, ← Nat.add_assoc]
      exact .separator (Cursor.separator?_of_reads hseparator ⟨List.append_assoc .., rfl⟩)
        (hreading _)
  | @semicolon place cur next last nodes h others ih =>
    obtain ⟨text, base, hreads, rfl, hreading⟩ := ih (hin.reads h) hrest
    refine ⟨[';'] ++ text, base.map (Node.shift (size [';'])), h.trans hreads, ?_,
      fun offset => ?_⟩
    · rw [Node.map_shift_shift, h.offset_eq]
    · rw [Node.map_shift_shift, Text.size_append, ← Nat.add_assoc]
      exact .semicolon ⟨List.append_assoc .., rfl⟩ (hreading _)
  | @mark cur next last nodes h others ih =>
    obtain ⟨mark, hfirst, hmark⟩ := skipMark?_recut h
    obtain ⟨text, base, hreads, rfl, hreading⟩ := ih (hin.reads hfirst) hrest
    refine ⟨mark ++ text, base.map (Node.shift (size mark)), hfirst.trans hreads, ?_,
      fun offset => ?_⟩
    · rw [Node.map_shift_shift, hfirst.offset_eq]
    · rw [Node.map_shift_shift, Text.size_append, ← Nat.add_assoc, List.append_assoc]
      exact .mark (hmark ..) (hreading _)
  | @leaf place cur next last node nodes hbegins h others ih =>
    obtain ⟨front, hfront⟩ := h.reads
    have hin' := hin.reads hfront
    obtain ⟨text, base, hreads, hbase, hreading⟩ := ih hin' (hrest.imp_right Settled.of_cons)
    -- a leaf looks at the character behind it, which belongs to the next node if there is one
    have hrestOthers : last.rest.head? = rest'.head? ∨ nodes ≠ [] :=
      hrest.imp_right fun hsettled => h.others_ne_nil hsettled
    have hhead := others.head?_eq hin' hreads hrestOthers
    obtain ⟨leaf, hnode, hleaf⟩ := h.recut hfront hhead
    have hne := h.text_ne_nil hin hfront
    refine ⟨front ++ text, leaf :: base.map (Node.shift (size front)), hfront.trans hreads, ?_,
      fun offset => ?_⟩
    · rw [List.map_cons, ← hnode, Node.map_shift_shift, ← hfront.offset_eq, hbase]
    · rw [List.map_cons, Node.map_shift_shift, Text.size_append, ← Nat.add_assoc,
        List.append_assoc]
      refine .leaf ?_ (hleaf offset) (hreading _)
      exact hbegins.congr hfront.rest_eq rfl hne (.inl hhead) fun hplace =>
        h.no_mark hplace hfront hne offset (text ++ rest')
  | @block place cur brace inside close next last head children nodes hplace hbegins h inner hclose
      others ihInner ih =>
    obtain ⟨front, hfront, hrecut⟩ := h.recut
    obtain ⟨skipped, hskipped⟩ := inner.reads
    have hinInside := hin.reads hfront
    obtain ⟨text, base, hreads, hbase, hreading⟩ := ih (hinInside.reads (hskipped.trans hclose))
      (hrest.imp_right Settled.of_cons)
    have hbrace : close.rest.head? = ('}' :: (text ++ rest')).head? := by
      rw [hclose.rest_eq]
      rfl
    obtain ⟨inside', baseInner, hinside, hbaseInner, hinner⟩ := ihInner hinInside (.inl hbrace)
    have htaken := (hfront.trans hinside).trans hclose
    refine ⟨front ++ ['{'] ++ inside' ++ ['}'] ++ text,
      head.node (baseInner.map (Node.shift (size (front ++ ['{']))))
        ⟨0, size (front ++ ['{'] ++ inside' ++ ['}'])⟩ ::
          base.map (Node.shift (size (front ++ ['{'] ++ inside' ++ ['}']))),
      htaken.trans hreads, ?_, fun offset => ?_⟩
    · rw [List.map_cons, shift_node, Node.map_shift_shift, Node.map_shift_shift,
        Span.shift_mk_zero, ← htaken.offset_eq, ← hfront.offset_eq, hbase, hbaseInner]
    · rw [List.map_cons, shift_node, Node.map_shift_shift, Node.map_shift_shift,
        Span.shift_mk_zero, Text.size_append _ text, ← Nat.add_assoc, List.append_assoc _ text]
      exact .of_block hplace (hbegins.recut hfront _ _) (hrecut offset _) (hinner _) (hreading _)

/-- Nodes stay the same in front of another text if they end with a block, or if that text begins
with the same character. -/
theorem Reading.congr {text : List Char} (h : Reading place cur nodes last) (hin : cur.In source)
    (hreads : Reads cur text last) (hrest : last.rest.head? = rest'.head? ∨ Settled nodes) :
    Reading place ⟨cur.offset, text ++ rest'⟩ nodes ⟨last.offset, rest'⟩ := by
  obtain ⟨text', base, hreads', hnodes, hrecut⟩ := h.recut hin hrest
  obtain rfl := hreads.unique hreads'
  rw [hnodes, hreads.offset_eq]
  exact hrecut cur.offset

end Extend

/-! ### Two stylesheets as one -/

/-- **Reading is compositional.** Behind a stylesheet that does not end with a statement, any text
is read as it is read alone: into the same nodes with their spans moved by the length of what stands
in front, or with the same fault, moved as far. -/
theorem ofText?_append {front : String} {nodes : List Node} (h : ofText? front = .ok nodes)
    (hsettled : Settled nodes) (back : String) :
    ofText? (front ++ back) =
      match ofText? back with
      | .ok others => .ok (nodes ++ others.map (Node.shift (size front.toList)))
      | .error fault => .error ⟨fault.cause, fault.offset + size front.toList⟩ := by
  obtain ⟨hreading, hreads⟩ := reading_of_ofText? h
  have hextended : Reading .top ⟨0, front.toList ++ back.toList⟩ nodes
      ⟨size front.toList, back.toList⟩ := hreading.congr ⟨[], .refl _⟩ hreads (.inr hsettled)
  have hjoined :
      ofText? (front ++ back) = reader.run ⟨[], []⟩ ⟨0, front.toList ++ back.toList⟩ := by
    rw [ofText?, Cursor.start, String.toList_append]
    rfl
  have hbehind : reader.run ⟨[], nodes.reverse⟩ ⟨size front.toList, back.toList⟩ = _ :=
    run_behind back.toList
  rw [hjoined, hextended.run [] [] rfl, List.append_nil, hbehind, List.reverse_reverse, ← ofText?]
  cases ofText? back <;> rfl

/-- Marks, comments and semicolons may end the text in front, and what follows may fail. -/
theorem ofText?_append_of_marks :
    ∃ nodes others, ofText? "@media é\x7ba\x7bb:c\x7d\x7d;/**/<!--" = .ok nodes ∧ Settled nodes ∧
      ofText? "-->p\x7bfont:x(é)\x7d" = .ok others ∧ others.length = 1 ∧
      ofText? ("@media é\x7ba\x7bb:c\x7d\x7d;/**/<!--" ++ "-->p\x7bfont:x(é)\x7d") =
        .ok (nodes ++ others.map (Node.shift 26)) ∧
      ofText? ("@media é\x7ba\x7bb:c\x7d\x7d;/**/<!--" ++ "p\x7b") =
        .error ⟨.unterminatedBlock, 1 + 26⟩ := by
  have hfront : (ofText? "@media é\x7ba\x7bb:c\x7d\x7d;/**/<!--").map
      (fun nodes => nodes.getLast?.all Node.hasBlock) = .ok true := by
    decide +kernel
  have hback : (ofText? "-->p\x7bfont:x(é)\x7d").map List.length = .ok 1 := by
    decide +kernel
  have hfails : (ofText? "p\x7b").map List.length = .error ⟨.unterminatedBlock, 1⟩ := by
    decide +kernel
  generalize h : ofText? "@media é\x7ba\x7bb:c\x7d\x7d;/**/<!--" = outcome at hfront
  generalize hothers : ofText? "-->p\x7bfont:x(é)\x7d" = outcome' at hback
  generalize hfault : ofText? "p\x7b" = outcome'' at hfails
  cases outcome with
  | error fault => cases hfront
  | ok nodes =>
    cases outcome' with
    | error fault => cases hback
    | ok others =>
      cases outcome'' with
      | ok => cases hfails
      | error fault =>
        have hsettled : Settled nodes := by
          intro node hlast
          have hall := Except.ok.inj hfront
          simpa [hlast] using hall
        refine ⟨nodes, others, rfl, hsettled, rfl, Except.ok.inj hback, ?_, ?_⟩
        · rw [ofText?_append h hsettled, hothers]
          rfl
        · rw [ofText?_append h hsettled, hfault]
          cases hfails
          rfl

end WebFonts.Css.Sheet
