import WebFonts.Proofs.RelocatedFamilies
import WebFonts.Revision.Basic

/-!
# Nested blocks are opaque

A nested rule is kept as it stands, so that nothing in its block matters to the tree around it.
`Css.nested_block_opaque`: another block in the place of this one leads to the same tree, with the
new text in the node of the nested rule and with everything behind it moved, and so to the same
declared families and the same uses.

A stylesheet with a nested rule somewhere in it is read in front of the rule, at the rule and behind
it, and its blocks are entered on the way (`Sheet.ReadsAround`). The parts in front are read as
before, since they end where the rule begins; the parts behind are read as before, further on or
further back.
-/

namespace WebFonts.Css

open Text (size)
open Cursor (Reads)

/-! ### Another rule in the place of a nested one -/

/-- Where an offset is to be found when what ended at `stop` ends at `stop'`. -/
def moveBehind (stop stop' offset : Nat) : Nat :=
  if offset < stop then offset else offset - stop + stop'

theorem moveBehind_of_lt {stop stop' offset : Nat} (h : offset < stop) :
    moveBehind stop stop' offset = offset :=
  if_pos h

theorem moveBehind_add (stop stop' offset : Nat) :
    moveBehind stop stop' (stop + offset) = stop' + offset := by
  rw [moveBehind, if_neg (by omega)]
  omega

/-- What becomes of a nested rule when `new` takes the place of `old`. -/
def Raw.exchange (old new raw : Raw) : Raw :=
  if raw = old then new else raw.relocate (moveBehind old.span.stop new.span.stop)

/-- The node with the nested rule `new` in the place of `old`, and with everything behind it moved
as far as its end. -/
def Node.exchange (old new : Raw) (node : Node) : Node :=
  node.relocate (moveBehind old.span.stop new.span.stop) (old.exchange new)

/-- The text of a nested rule is a head and a block, whose brace stands at an offset. -/
def Raw.Nests (raw : Raw) (head block : List Char) (brace : Nat) : Prop :=
  (Cursor.mk raw.span.start raw.text.toList).upTo Sheet.stops 0 = .ok (head, ⟨brace, block⟩) ∧
    block.head? = some '{'

/-- The nested rule with a head and a block as its text. -/
def Raw.withBlock (raw : Raw) (head block : List Char) : Raw :=
  ⟨String.ofList (head ++ block), ⟨raw.span.start, raw.span.start + size head + size block⟩⟩

/-- A text is one block, whatever stands behind it. -/
structure IsBlock (text : List Char) : Prop where
  brace : text.head? = some '{'
  closes : ∀ offset rest, (Cursor.mk offset (text ++ rest)).block =
    .ok (text, ⟨offset + size text, rest⟩)

section Exchange

variable {old new : Raw} {source : String} {place : Sheet.Place} {cur last : Cursor}
  {nodes : List Node}

theorem exchange_self : Node.exchange old new (.raw old) = .raw new :=
  congrArg Node.raw (if_pos rfl)

/-- A block around a nested rule ends behind it, and is moved there. -/
theorem exchange_node {start distance : Nat} (hstart : start < old.span.stop) (head : Sheet.Head)
    (children : List Node) :
    Node.exchange old new (head.node children ⟨start, old.span.stop + distance⟩) =
      head.node (children.map (Node.exchange old new)) ⟨start, new.span.stop + distance⟩ := by
  rw [Node.exchange, Sheet.Head.relocate_node, Span.relocate, moveBehind_of_lt hstart,
    moveBehind_add]
  rfl

/-- Nodes in front of a nested rule stay as they are. -/
theorem map_exchange_of_front (h : Sheet.Reading place cur nodes last)
    (hlt : last.offset < old.span.stop) : nodes.map (Node.exchange old new) = nodes := by
  refine h.relocate_eq (fun offset hle => moveBehind_of_lt (by omega)) fun raw hstart hstop => ?_
  have hne : raw ≠ old := by
    rintro rfl
    omega
  rw [Raw.exchange, if_neg hne, Raw.relocate,
    Span.relocate_eq (moveBehind_of_lt (by omega)) (moveBehind_of_lt (by omega))]

/-- Nodes behind a nested rule are moved as a whole. -/
theorem map_exchange_of_back (hlt : old.span.start < old.span.stop) (distance : Nat)
    (base : List Node) :
    (base.map (Node.shift (old.span.stop + distance))).map (Node.exchange old new) =
      base.map (Node.shift (new.span.stop + distance)) := by
  have hmove (offset : Nat) :
      moveBehind old.span.stop new.span.stop (offset + (old.span.stop + distance)) =
        offset + (new.span.stop + distance) := by
    rw [Nat.add_left_comm, moveBehind_add, Nat.add_left_comm]
  refine Node.map_relocate_shift hmove (fun raw => ?_) base
  have hne : raw.shift (old.span.stop + distance) ≠ old := by
    intro heq
    have := congrArg (·.span.start) heq
    simp only [Raw.shift, Span.shift] at this
    omega
  rw [Raw.exchange, if_neg hne, Raw.relocate_shift hmove]

theorem Raw.Nests.offset_eq {head block : List Char} {brace : Nat}
    (hraw : old.Nests head block brace) : brace = old.span.start + size head :=
  (Cursor.reads_upTo hraw.1).offset_eq

theorem Raw.Nests.size_pos {head block : List Char} {brace : Nat}
    (hraw : old.Nests head block brace) : 0 < size block := by
  obtain ⟨inside, rfl⟩ := List.head?_eq_some_iff.mp hraw.2
  have := Char.utf8Size_pos '{'
  rw [Text.size_cons]
  omega

end Exchange

namespace Sheet

/-! ### Readings around a nested rule -/

/-- Some nodes stand between two cursors, and a nested rule among them or in one of their blocks. -/
inductive ReadsAround (raw : Raw) : Place → Cursor → List Node → Cursor → Prop
  | here {place : Place} {cur start next last : Cursor} {front back : List Node}
      (hfront : Reading place cur front start) (hbegins : Begins place start)
      (h : Leaf start place (.raw raw) next) (hback : Reading place next back last) :
      ReadsAround raw place cur (front ++ .raw raw :: back) last
  | within {place : Place} {cur start brace inside close next last : Cursor} {head : Head}
      {front children back : List Node} (hfront : Reading place cur front start)
      (hplace : place.holdsRules = true) (hbegins : Begins place start)
      (h : Opens start head brace inside) (inner : ReadsAround raw head.place inside children close)
      (hclose : Reads close ['}'] next) (hback : Reading place next back last) :
      ReadsAround raw place cur (front ++ head.node children ⟨start.offset, next.offset⟩ :: back)
        last

variable {raw : Raw} {source : String} {place : Place} {cur next last : Cursor} {nodes : List Node}

theorem ReadsAround.behind {front : List Node} (h : ReadsAround raw place next nodes last)
    (hfront : Reading place cur front next) : ReadsAround raw place cur (front ++ nodes) last := by
  cases h with
  | here hbefore hbegins h hback =>
    rw [← List.append_assoc]
    exact .here (hfront.append hbefore) hbegins h hback
  | within hbefore hplace hbegins h inner hclose hback =>
    rw [← List.append_assoc]
    exact .within (hfront.append hbefore) hplace hbegins h inner hclose hback

theorem Leaf.visits {node : Node} (h : Leaf cur place node next) (parent : Option Node) :
    node.visits parent = [⟨node, parent⟩] := by
  cases h <;> rfl

theorem visits_node (head : Head) (children : List Node) (span : Span) (parent : Option Node) :
    (head.node children span).visits parent =
      ⟨head.node children span, parent⟩ :: visitsIn (some (head.node children span)) children := by
  cases head <;> rfl

/-- A nested rule that is visited is read somewhere. -/
theorem Reading.readsAround {parent : Option Node} (h : Reading place cur nodes last)
    (hraw : .raw raw ∈ (visitsIn parent nodes).map Visit.node) :
    ReadsAround raw place cur nodes last := by
  induction h generalizing parent with
  | nil => cases hraw
  | separator h others ih => exact (ih hraw).behind (.separator h (.nil ..))
  | semicolon h others ih => exact (ih hraw).behind (.semicolon h (.nil ..))
  | mark h others ih => exact (ih hraw).behind (.mark h (.nil ..))
  | leaf hbegins h others ih =>
    rw [visitsIn, List.map_append, h.visits, List.map_singleton, List.singleton_append,
      List.mem_cons] at hraw
    rcases hraw with rfl | hothers
    · exact .here (.nil ..) hbegins h others
    · exact (ih hothers).behind (.leaf hbegins h (.nil ..))
  | @block place cur brace inside close next last head children nodes hplace hbegins h inner hclose
      others ihInner ih =>
    rw [visitsIn, List.map_append, visits_node, List.mem_append, List.map_cons,
      List.mem_cons] at hraw
    rcases hraw with (hnode | hinner) | hothers
    · cases head <;> cases hnode
    · exact .within (.nil ..) hplace hbegins h (ihInner hinner) hclose others
    · exact (ih hothers).behind (.block hplace hbegins h inner hclose (.nil ..))

/-! ### Another block -/

section Block

variable {head block : List Char} {brace : Nat}

/-- A nested rule with a block is read as its head and its block. -/
theorem Leaf.eq_of_nests (h : Leaf cur place (.raw raw) next) (hraw : raw.Nests head block brace) :
    ∃ stop, cur.upTo stops 0 = .ok (head, stop) ∧ stop.block = .ok (block, next) ∧
      stop.rest.head? = some '{' ∧ place = .declarations ∧ raw.span.start = cur.offset ∧
      raw.withBlock head block = raw := by
  obtain ⟨hread, hhead⟩ := hraw
  cases h with
  | @block stop last statement block' hstatement hbrace hblock =>
    have hreadsStatement := Cursor.reads_upTo hstatement
    obtain ⟨hreads, hne⟩ := Cursor.reads_block hblock
    have hsame : stop.rest.head? = block'.head? := by
      rw [hreads.rest_eq, List.head?_append_of_ne_nil _ hne]
    have hread' := Cursor.upTo_congr plain_stops hstatement hsame cur.offset
    rw [String.toList_ofList, hread'] at hread
    cases hread
    refine ⟨stop, hstatement, hblock, hbrace, rfl, rfl, ?_⟩
    rw [Raw.withBlock, hreads.offset_eq, hreadsStatement.offset_eq]
  | @statement stop statement hstatement hbrace hat =>
    -- a statement without a block is read to its end
    obtain ⟨lexemes, rfl, hlexes, hpasses, -⟩ := Cursor.passes_of_upTo hstatement
    have hread' : (Cursor.mk cur.offset (spell lexemes)).upTo stops 0 =
        .ok (spell lexemes, ⟨cur.offset + size (spell lexemes), []⟩) :=
      Cursor.upTo_of_passes plain_stops ⟨(List.append_nil _).symm, rfl⟩ hlexes.atEnd hpasses
        (.inl rfl)
    rw [String.toList_ofList, hread'] at hread
    cases hread
    cases hhead

/-- A nested rule is read with another block in the place of its own. -/
theorem Leaf.reblock {stop : Cursor} {block' : List Char} (hbegins : Begins .declarations cur)
    (hhead : cur.upTo stops 0 = .ok (head, stop)) (hbrace : stop.rest.head? = some '{')
    (hblock' : IsBlock block') (hstart : raw.span.start = cur.offset) (rest : List Char) :
    Begins .declarations ⟨cur.offset, head ++ (block' ++ rest)⟩ ∧
      Leaf ⟨cur.offset, head ++ (block' ++ rest)⟩ .declarations (.raw (raw.withBlock head block'))
        ⟨cur.offset + size head + size block', rest⟩ := by
  obtain ⟨after, hafter⟩ := List.head?_eq_some_iff.mp hbrace
  obtain ⟨inside', hinside'⟩ := List.head?_eq_some_iff.mp hblock'.brace
  have hhead' : stop.rest.head? = (block' ++ rest).head? := by rw [hbrace, hinside']; rfl
  constructor
  · have hopening : Reads stop ['{'] (stop.pass ['{'] after) := Cursor.reads_pass hafter
    rw [hinside']
    exact hbegins.recut ((Cursor.reads_upTo hhead).trans hopening) cur.offset _
  · rw [Raw.withBlock, hstart]
    exact .block (Cursor.upTo_congr plain_stops hhead hhead' cur.offset) (hhead' ▸ hbrace)
      (hblock'.closes _ rest)

/-- A nested rule stands among nodes that are read between two cursors, behind `front` and in front
of `back`, and everything is read as before when another block takes the place of its block. -/
structure Surrounded (raw : Raw) (head block : List Char) (place : Place) (cur : Cursor)
    (nodes : List Node) (last : Cursor) (front back : List Char) : Prop where
  reads : Reads cur (front ++ (head ++ (block ++ back))) last
  start : raw.span.start = cur.offset + size front
  text : raw.withBlock head block = raw
  reading : ∀ block', IsBlock block' →
    Reading place ⟨cur.offset, front ++ (head ++ (block' ++ (back ++ last.rest)))⟩
      (nodes.map (Node.exchange raw (raw.withBlock head block')))
      ⟨raw.span.start + size head + size block' + size back, last.rest⟩

/-- A nested rule that stands among some nodes is surrounded by those in front of it and those
behind it. -/
theorem Surrounded.here {start : Cursor} {front back : List Node} (hin : cur.In source)
    (hfront : Reading place cur front start) (hbegins : Begins place start)
    (h : Leaf start place (.raw raw) next) (hback : Reading place next back last)
    (hraw : raw.Nests head block brace) :
    ∃ before after, Surrounded raw head block place cur (front ++ .raw raw :: back) last
      before after := by
  obtain ⟨stop, hhead, hblock, hopening, rfl, hstart, htext⟩ := h.eq_of_nests hraw
  obtain ⟨before, hbefore⟩ := hfront.reads
  have hheadReads := Cursor.reads_upTo hhead
  have hrule := hheadReads.trans (Cursor.reads_block hblock).1
  obtain ⟨after, base, hafter, rfl, hbackReading⟩ :=
    hback.recut (hin.reads (hbefore.trans hrule)) (.inl (Eq.refl last.rest.head?))
  refine ⟨before, after, ?_, hstart.trans hbefore.offset_eq, htext, fun block' hblock' => ?_⟩
  · simpa using (hbefore.trans hrule).trans hafter
  have hstop : raw.span.stop = raw.span.start + size head + size block :=
    (congrArg (·.span.stop) htext).symm
  have hpos := hraw.size_pos
  have hnext : next.offset = raw.span.stop + 0 := by
    rw [hrule.offset_eq, Text.size_append]
    omega
  rw [List.map_append, List.map_cons, exchange_self, map_exchange_of_front hfront (by omega), hnext,
    map_exchange_of_back (by omega)]
  have hsame : start.rest.head? = (head ++ (block' ++ (after ++ last.rest))).head? := by
    rw [hheadReads.rest_eq, List.head?_append, List.head?_append, hopening, List.head?_append,
      hblock'.brace]
    rfl
  obtain ⟨hbegins', hleaf⟩ :=
    Leaf.reblock hbegins hhead hopening hblock' hstart (after ++ last.rest)
  refine (hfront.congr hin hbefore (.inl hsame)).append (.leaf hbegins' hleaf ?_)
  rw [← hstart]
  exact hbackReading _

/-- A nested rule in a block is surrounded by what surrounds it there, by the head and the closing
brace of the block, and by the nodes in front of the block and behind it. -/
theorem Surrounded.within {start brace' inside close : Cursor} {opened : Head}
    {front children back : List Node} {before after : List Char} (hin : cur.In source)
    (hfront : Reading place cur front start) (hplace : place.holdsRules = true)
    (hbegins : Begins place start) (h : Opens start opened brace' inside)
    (inner : Surrounded raw head block opened.place inside children close before after)
    (hclose : Reads close ['}'] next) (hback : Reading place next back last)
    (hraw : raw.Nests head block brace) :
    ∃ before after, Surrounded raw head block place cur
      (front ++ opened.node children ⟨start.offset, next.offset⟩ :: back) last before after := by
  obtain ⟨outer, houter⟩ := hfront.reads
  obtain ⟨text, htext, hrecut⟩ := h.recut
  have hblock := (htext.trans inner.reads).trans hclose
  obtain ⟨behind, base, hbehind, rfl, hbackReading⟩ :=
    hback.recut (hin.reads (houter.trans hblock)) (.inl (Eq.refl last.rest.head?))
  refine ⟨outer ++ (text ++ ['{'] ++ before), after ++ (['}'] ++ behind), ?_, ?_, inner.text,
    fun block' hblock' => ?_⟩
  · simpa using (houter.trans hblock).trans hbehind
  · rw [inner.start, htext.offset_eq, houter.offset_eq]
    simp only [Text.size_append]
    omega
  have hstop : raw.span.stop = raw.span.start + size head + size block :=
    (congrArg (·.span.stop) inner.text).symm
  have hpos := hraw.size_pos
  have hinside := htext.offset_eq
  have hstart := inner.start
  have hnext : next.offset = raw.span.stop + (size after + size ['}']) := by
    rw [hclose.offset_eq, inner.reads.offset_eq]
    simp only [Text.size_append]
    omega
  rw [List.map_append, List.map_cons, hnext, exchange_node (by omega),
    map_exchange_of_front hfront (by omega), map_exchange_of_back (by omega)]
  -- the texts around the rule, from the inside to the outside
  have hinner := inner.reading block' hblock'
  rw [hclose.rest_eq, hbehind.rest_eq, hinside] at hinner
  have hopens := hrecut start.offset
    (before ++ (head ++ (block' ++ (after ++ (['}'] ++ (behind ++ last.rest))))))
  have hsame : start.rest.head? = (text ++ '{' ::
      (before ++ (head ++ (block' ++ (after ++ (['}'] ++ (behind ++ last.rest))))))).head? := by
    rw [htext.rest_eq, List.append_assoc]
    cases text <;> rfl
  have hreading := (hfront.congr hin houter (.inl hsame)).append
    (.block hplace (hbegins.recut htext start.offset _) hopens hinner ⟨rfl, rfl⟩ (hbackReading _))
  have hrest : outer ++ (text ++ ['{'] ++ before) ++
      (head ++ (block' ++ (after ++ (['}'] ++ behind) ++ last.rest))) = outer ++ (text ++ '{' ::
        (before ++ (head ++ (block' ++ (after ++ (['}'] ++ (behind ++ last.rest))))))) := by
    simp
  have hlast : raw.span.start + size head + size block' + size (after ++ (['}'] ++ behind)) =
      raw.span.start + size head + size block' + size after + size ['}'] + size behind := by
    simp only [Text.size_append, Nat.add_assoc]
  rw [hrest, hlast, Raw.withBlock, ← Nat.add_assoc _ (size after)]
  exact hreading

/-- Whatever block takes the place of the block of a nested rule, everything around the rule is read
as before. -/
theorem ReadsAround.surrounded (h : ReadsAround raw place cur nodes last) (hin : cur.In source)
    (hraw : raw.Nests head block brace) :
    ∃ before after, Surrounded raw head block place cur nodes last before after := by
  induction h with
  | here hfront hbegins h hback => exact Surrounded.here hin hfront hbegins h hback hraw
  | within hfront hplace hbegins h inner hclose hback ih =>
    obtain ⟨outer, houter⟩ := hfront.reads
    obtain ⟨text, htext, -⟩ := h.recut
    obtain ⟨before, after, hinner⟩ := ih (hin.reads (houter.trans htext))
    exact Surrounded.within hin hfront hplace hbegins h hinner hclose hback hraw

end Block

end Sheet

/-! ### Nested blocks -/

/-- A text in braces. -/
def braced (inside : String) : String :=
  "\x7b" ++ inside ++ "\x7d"

theorem isBlock_braced {inside : String} {offset : Nat} {after : List Char} {last : Cursor}
    (h : (Cursor.mk offset ((braced inside).toList ++ after)).block =
      .ok ((braced inside).toList, last)) :
    IsBlock (braced inside).toList :=
  ⟨by simp [braced], Cursor.block_congr h⟩

section Nested

variable {before inside inside' after : String} {nodes : List Node} {raw : Raw} {head : List Char}

/-- A block at an offset of the source is the block of a nested rule in it, and what stands around
the one stands around the other. -/
theorem surroundings_of_nests {front back : List Char} {stop : Nat}
    (h : Sheet.Surrounded raw head (braced inside).toList .top
      (.start (before ++ braced inside ++ after).toList) nodes ⟨stop, []⟩ front back)
    (hraw : raw.Nests head (braced inside).toList (size before.toList)) :
    before.toList = front ++ head ∧ after.toList = back := by
  have hsource := h.reads.rest_eq
  simp only [Cursor.start, String.toList_append, List.append_nil] at hsource
  have hparts : before.toList ++ ((braced inside).toList ++ after.toList) =
      (front ++ head) ++ ((braced inside).toList ++ back) := by
    simpa using hsource
  have hsize : size before.toList = size (front ++ head) := by
    rw [hraw.offset_eq, h.start, Text.size_append]
    exact congrArg (· + size head) (Nat.zero_add _)
  exact (Text.append_inj_of_size hparts hsize).imp_right List.append_cancel_left

/-- **Nested blocks are opaque.** Let `before ++ {inside} ++ after` be a stylesheet in whose tree
these braces are those of a nested rule, and let the scanner for blocks read `{inside'}` as one
block in front of `after`. With this block in the place of the other one, the stylesheet is read
into the same tree, except for the text of the nested rule and for the offsets behind it, which move
as far as the end of the block. So the same families are declared, and the same ones are used, at
the places that move with the text. -/
theorem nested_block_opaque {stop : Cursor}
    (h : Sheet.ofText? (before ++ braced inside ++ after) = .ok nodes)
    (hmem : .raw raw ∈ (visits nodes).map Visit.node)
    (hraw : raw.Nests head (braced inside).toList (size before.toList))
    (hblock : (Cursor.mk (size before.toList) ((braced inside').toList ++ after.toList)).block =
      .ok ((braced inside').toList, stop)) :
    Sheet.ofText? (before ++ braced inside' ++ after) =
        .ok (nodes.map (Node.exchange raw (raw.withBlock head (braced inside').toList))) ∧
      declaredNames (nodes.map (Node.exchange raw (raw.withBlock head (braced inside').toList))) =
        declaredNames nodes ∧
      ∀ customProperties, usesOf? (before ++ braced inside' ++ after) customProperties =
        (usesOf? (before ++ braced inside ++ after) customProperties).map
          (List.map (FamilyUse.relocate (moveBehind (size (before ++ braced inside).toList)
            (size (before ++ braced inside').toList)))) := by
  obtain ⟨front, back, hsurrounded⟩ :=
    ((Sheet.reading_of_ofText? h).1.readsAround hmem).surrounded ⟨[], .refl _⟩ hraw
  obtain ⟨hbefore, hafter⟩ := surroundings_of_nests hsurrounded hraw
  have hread : Sheet.ofText? (before ++ braced inside' ++ after) =
      .ok (nodes.map (Node.exchange raw (raw.withBlock head (braced inside').toList))) := by
    have htext : (before ++ braced inside' ++ after).toList =
        front ++ (head ++ ((braced inside').toList ++ (back ++ []))) := by
      simp only [String.toList_append, hbefore, hafter, List.append_assoc, List.append_nil]
    have hreading := hsurrounded.reading _ (isBlock_braced hblock)
    rw [← htext] at hreading
    exact Sheet.ofText?_eq_ok_iff.mpr ⟨_, hreading, rfl⟩
  have hnames : declaredNames
      (nodes.map (Node.exchange raw (raw.withBlock head (braced inside').toList))) =
        declaredNames nodes := declaredNames_relocate nodes
  refine ⟨hread, hnames, fun customProperties => ?_⟩
  have hstop (inside : String) : (raw.withBlock head (braced inside).toList).span.stop =
      size (before ++ braced inside).toList := by
    rw [Raw.withBlock, String.toList_append, Text.size_append, hraw.offset_eq]
  have hstopOld : raw.span.stop = size (before ++ braced inside).toList := by
    rw [← hstop, hsurrounded.text]
  rw [← hstopOld, ← hstop inside', usesOf?, usesOf?, hread, h]
  simp only [bind, Except.bind, hnames]
  cases declaredNames nodes with
  | error fault => rfl
  | ok declared => exact familyUses_relocate nodes declared customProperties

/-- Quotes, comments, braces and rules of its own do not leak out of a nested block. -/
theorem nested_block_opaque_of_font_face :
    ∃ nodes raw head stop,
      Sheet.ofText? ("@media x\x7ba\x7bb " ++ braced "c:d" ++ "font:1em y,z\x7d\x7d") = .ok nodes ∧
      .raw raw ∈ (visits nodes).map Visit.node ∧
      raw.Nests head (braced "c:d").toList (size "@media x\x7ba\x7bb ".toList) ∧
      (Cursor.mk (size "@media x\x7ba\x7bb ".toList)
        ((braced "\"\x7d\"/*\x7b*/@font-face\x7bfont-family:y\x7d").toList ++
          "font:1em y,z\x7d\x7d".toList)).block =
        .ok ((braced "\"\x7d\"/*\x7b*/@font-face\x7bfont-family:y\x7d").toList, stop) ∧
      Sheet.ofText? ("@media x\x7ba\x7bb " ++
        braced "\"\x7d\"/*\x7b*/@font-face\x7bfont-family:y\x7d" ++ "font:1em y,z\x7d\x7d") =
          .ok (nodes.map (Node.exchange raw (raw.withBlock head
            (braced "\"\x7d\"/*\x7b*/@font-face\x7bfont-family:y\x7d").toList))) ∧
      usesOf? ("@media x\x7ba\x7bb " ++
        braced "\"\x7d\"/*\x7b*/@font-face\x7bfont-family:y\x7d" ++ "font:1em y,z\x7d\x7d") false =
          .ok [⟨"y", ⟨["z"], none⟩, some 58⟩] := by
  have hread : (Sheet.ofText? ("@media x\x7ba\x7bb " ++ braced "c:d" ++
      "font:1em y,z\x7d\x7d")).map (fun nodes => ((visits nodes).map Visit.node).filterMap
        fun node => match node with
          | .raw raw => some raw
          | _ => none) = .ok [⟨"b \x7bc:d\x7d", ⟨11, 18⟩⟩] := by
    decide +kernel
  have huses : usesOf? ("@media x\x7ba\x7bb " ++ braced "c:d" ++ "font:1em y,z\x7d\x7d") false =
      .ok [⟨"y", ⟨["z"], none⟩, some 28⟩] := by
    decide +kernel
  generalize h : Sheet.ofText? ("@media x\x7ba\x7bb " ++ braced "c:d" ++
    "font:1em y,z\x7d\x7d") = outcome at hread
  cases outcome with
  | error fault => cases hread
  | ok nodes =>
    have hmem : Node.raw ⟨"b \x7bc:d\x7d", ⟨11, 18⟩⟩ ∈ (visits nodes).map Visit.node := by
      have hraws : _ = [Raw.mk "b \x7bc:d\x7d" ⟨11, 18⟩] := Except.ok.inj hread
      obtain ⟨node, hnode, hraw⟩ := List.mem_filterMap.mp (hraws ▸ List.mem_singleton_self _)
      split at hraw <;> cases hraw
      exact hnode
    have hraw : (Raw.mk "b \x7bc:d\x7d" ⟨11, 18⟩).Nests "b ".toList (braced "c:d").toList
        (size "@media x\x7ba\x7bb ".toList) := by
      constructor <;> decide +kernel
    have hblock : (Cursor.mk (size "@media x\x7ba\x7bb ".toList)
        ((braced "\"\x7d\"/*\x7b*/@font-face\x7bfont-family:y\x7d").toList ++
          "font:1em y,z\x7d\x7d".toList)).block =
        .ok ((braced "\"\x7d\"/*\x7b*/@font-face\x7bfont-family:y\x7d").toList,
          ⟨48, "font:1em y,z\x7d\x7d".toList⟩) := by
      decide +kernel
    obtain ⟨hnew, -, husesNew⟩ := nested_block_opaque h hmem hraw hblock
    refine ⟨nodes, _, _, _, rfl, hmem, hraw, hblock, hnew, ?_⟩
    rw [husesNew, huses]
    decide +kernel

end Nested

end WebFonts.Css
