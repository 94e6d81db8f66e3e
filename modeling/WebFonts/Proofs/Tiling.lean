import WebFonts.Proofs.Declarations
import WebFonts.Proofs.Grammar

/-!
# The spans of a stylesheet tile its source

The nodes of a block follow each other in the source without overlap, and what stands between them
means nothing: blanks, comments, semicolons and, outside every block, the marks `<!--` and `-->`.
`Tiles` says this of a list of nodes and of every block inside them, together with what the spans
of the nodes cover; `tiles_of_ofText?` says that it holds of every stylesheet that is read.

The proof follows the grammar. The text between two nodes is carried along as a `Gap` that reaches
from the last node to the cursor, since a declaration may end before the blanks behind it.
-/

namespace WebFonts.Css

open Text (size isBlank isBoundary cut trim trimEnd trimStart)
open Cursor (Reads)

/-! ### What a tiling is -/

/-- A text without meaning between nodes. The marks count only outside every block. -/
inductive Gap (top : Bool) : List Char → Prop
  | nil : Gap top []
  | blank {c : Char} {others : List Char} (h : isBlank c = true) (hothers : Gap top others) :
    Gap top (c :: others)
  | comment {inside others : List Char} (h : closeComment? inside = some (inside, []))
      (hothers : Gap top others) : Gap top ('/' :: '*' :: inside ++ others)
  | semicolon {others : List Char} (hothers : Gap top others) : Gap top (';' :: others)
  | openingMark {others : List Char} (htop : top = true) (hothers : Gap top others) :
    Gap top ('<' :: '!' :: '-' :: '-' :: others)
  | closingMark {others : List Char} (htop : top = true) (hothers : Gap top others) :
    Gap top ('-' :: '-' :: '>' :: others)

/-- A span covers some text of the source: its ends are character boundaries, and they differ. -/
def Span.Covers (source : String) (span : Span) : Prop :=
  span.start < span.stop ∧ ∃ text, span.slice? source = some text

/-- The text in front of the opening brace of a block. -/
def Sheet.Head.Spells (head : Sheet.Head) (text : List Char) : Prop :=
  match head with
  | .rule selector => selector = String.ofList (trim text)
  | .atRule name prelude => ∃ word rest, text = '@' :: word ++ rest ∧
      name = Text.lower (String.ofList (unescape word)) ∧ prelude = String.ofList (trim rest)

/-- A span consists of a head, an opening brace at an offset, and a block up to a closing brace. -/
structure Span.Encloses (source : String) (span : Span) (head : Sheet.Head) (brace : Nat) :
    Prop where
  head : ∃ text, (Span.mk span.start brace).slice? source = some text ∧ head.Spells text.toList
  opening : (Span.mk brace (brace + 1)).slice? source = some "\x7b"
  closing : (Span.mk (span.stop - 1) span.stop).slice? source = some "\x7d"
  inside : brace + 1 ≤ span.stop - 1

mutual

/-- The span of a node covers the text of the node, and so do the spans inside it. -/
def Node.Placed (source : String) : Node → Prop
  | .rule selector children span => span.Covers source ∧ ∃ brace,
      span.Encloses source (.rule selector) brace ∧
        Tiles source false (brace + 1) (span.stop - 1) children
  | .atRule name prelude (some children) span => span.Covers source ∧ ∃ brace,
      span.Encloses source (.atRule name prelude) brace ∧
        Tiles source false (brace + 1) (span.stop - 1) children
  | .atRule _ _ none span => span.Covers source
  | .declaration declaration => declaration.span.Covers source ∧
      ∀ raw, declaration.value = .raw raw → raw.span.slice? source = some raw.text
  | .raw raw => raw.span.Covers source ∧ raw.span.slice? source = some raw.text

/-- Nodes follow each other from one offset to another, with gaps around them. -/
def Tiles (source : String) (top : Bool) (start stop : Nat) : List Node → Prop
  | [] => ∃ gap, (Span.mk start stop).slice? source = some gap ∧ Gap top gap.toList
  | node :: nodes =>
    (∃ gap, (Span.mk start node.span.start).slice? source = some gap ∧ Gap top gap.toList) ∧
      node.Placed source ∧ Tiles source top node.span.stop stop nodes

end

theorem Sheet.Head.placed_node {source : String} {head : Sheet.Head} {children : List Node}
    {span : Span} :
    (head.node children span).Placed source ↔ span.Covers source ∧ ∃ brace,
      span.Encloses source head brace ∧
        Tiles source false (brace + 1) (span.stop - 1) children := by
  cases head <;> rfl

/-! ### Gaps -/

theorem Gap.append {top : Bool} {front back : List Char} (hfront : Gap top front)
    (hback : Gap top back) : Gap top (front ++ back) := by
  induction hfront with
  | nil => exact hback
  | blank h others ih => exact .blank h ih
  | comment h others ih =>
    rw [List.append_assoc]
    exact .comment h ih
  | semicolon others ih => exact .semicolon ih
  | openingMark htop others ih => exact .openingMark htop ih
  | closingMark htop others ih => exact .closingMark htop ih

theorem Gap.of_blanks {top : Bool} {blanks : List Char} (h : blanks.all isBlank = true) :
    Gap top blanks := by
  induction blanks with
  | nil => exact .nil
  | cons c blanks ih =>
    rw [List.all_cons, Bool.and_eq_true] at h
    exact .blank h.1 (ih h.2)

theorem Separator.gap {top : Bool} {text : List Char} (h : Separator text) : Gap top text := by
  cases h with
  | blank hblank => exact .blank (Text.isBlank_of_isWhitespace hblank) .nil
  | comment hclose =>
    have hgap : Gap top _ := .comment hclose .nil
    rwa [List.append_nil] at hgap

theorem gap_of_skipMark? {cur next : Cursor} (h : Sheet.skipMark? cur = some next) :
    ∃ mark, Reads cur mark next ∧ Gap true mark := by
  unfold Sheet.skipMark? at h
  split at h <;> cases h
  · exact ⟨_, Cursor.reads_pass ‹_›, .openingMark rfl .nil⟩
  · exact ⟨_, Cursor.reads_pass ‹_›, .closingMark rfl .nil⟩

/-! ### Cursors in a source -/

/-- A cursor stands in a source, with what is left of it ahead. -/
def Cursor.In (source : String) (cur : Cursor) : Prop :=
  ∃ front, Reads (.start source.toList) front cur

section In

variable {source : String} {cur next : Cursor} {taken : List Char}

theorem Cursor.In.reads (h : cur.In source) (hreads : Reads cur taken next) : next.In source := by
  obtain ⟨front, hfront⟩ := h
  exact ⟨_, hfront.trans hreads⟩

/-- The text between two cursors is the slice of the source at their offsets. -/
theorem Cursor.In.slice? (h : cur.In source) (hreads : Reads cur taken next) :
    (Span.mk cur.offset next.offset).slice? source = some (String.ofList taken) := by
  obtain ⟨front, hrest, hoffset⟩ := h
  obtain ⟨hrest', hoffset'⟩ := hreads
  simp only [Cursor.start, Nat.zero_add] at hrest hoffset
  rw [hoffset', hoffset]
  exact Span.slice?_append (by rw [hrest, hrest'])

theorem Cursor.In.covers (h : cur.In source) (hreads : Reads cur taken next) (hne : taken ≠ []) :
    (Span.mk cur.offset next.offset).Covers source :=
  ⟨hreads.offset_lt hne, _, h.slice? hreads⟩

end In

/-! ### Nodes are placed -/

section Placed

variable {source : String} {cur next : Cursor}

theorem Declaration.placed {declaration : Declaration} {statement : List Char}
    (hin : cur.In source) (hreads : Reads cur statement next)
    (h : Declaration.ofStatement? ⟨cur.offset, statement⟩ = .ok declaration) :
    (Node.declaration declaration).Placed source ∧
      declaration.span = ⟨cur.offset, cur.offset + size (trimEnd statement)⟩ := by
  obtain ⟨named, colon, behind, hproperty, hskip, hcolon, hvalue, -, hspan⟩ :=
    Declaration.ofStatement?_eq_ok h
  obtain ⟨front, hbehind⟩ := Declaration.reads_value hproperty hskip hcolon
  have hstatement : statement = front ++ [':'] ++ behind.rest := hbehind.rest_eq
  dsimp only at hspan
  refine ⟨⟨?_, fun raw hraw => ?_⟩, hspan⟩
  · obtain ⟨blanks, hblanks, hall⟩ := Text.trimEnd_append statement
    have htrimmed : Reads cur (trimEnd statement)
        ⟨cur.offset + size (trimEnd statement), blanks ++ next.rest⟩ :=
      ⟨by rw [← List.append_assoc, hblanks, hreads.rest_eq], rfl⟩
    rw [hspan]
    refine hin.covers htrimmed ?_
    intro hnil
    rw [hnil, List.nil_append] at hblanks
    have hmem : ':' ∈ blanks := by rw [hblanks, hstatement]; simp
    exact absurd (List.all_eq_true.mp hall _ hmem) (by decide)
  · rw [hraw] at hvalue
    obtain ⟨leading, kept, trailing, htext, hkept, hrawSpan⟩ := Declaration.value_eq_raw hvalue
    obtain ⟨mark, hmark⟩ := cutImportant_append_eq behind.rest
    have hwhole : Reads cur (front ++ [':']) ⟨behind.offset, behind.rest ++ next.rest⟩ := by
      have := hbehind.append_rest next.rest
      rwa [← hreads.rest_eq] at this
    have hrest : behind.rest = leading ++ kept ++ trailing ++ mark := by rw [← htext, hmark]
    have hleading : Reads ⟨behind.offset, behind.rest ++ next.rest⟩ leading
        ⟨behind.offset + size leading, kept ++ (trailing ++ mark ++ next.rest)⟩ :=
      ⟨by dsimp only; rw [hrest]; simp, rfl⟩
    have hkeeps : Reads ⟨behind.offset + size leading, kept ++ (trailing ++ mark ++ next.rest)⟩ kept
        ⟨behind.offset + size leading + size kept, trailing ++ mark ++ next.rest⟩ :=
      ⟨rfl, rfl⟩
    rw [hrawSpan, hkept]
    exact ((hin.reads hwhole).reads hleading).slice? hkeeps

end Placed

namespace Sheet

variable {source : String} {place : Place} {cur next last : Cursor}

/-- A leaf is placed where it is read, and only blanks stand behind it. -/
theorem Leaf.placed {node : Node} (h : Leaf cur place node next) (hin : cur.In source) :
    node.Placed source ∧ node.span.start = cur.offset ∧
      ∃ ended taken blanks, ended.offset = node.span.stop ∧ Reads cur taken ended ∧
        Reads ended blanks next ∧ blanks.all isBlank = true := by
  cases h with
  | atRule hplace hname hprelude hbrace =>
    rename_i after stop name prelude
    obtain ⟨word, hword, -⟩ := hname.reads
    obtain ⟨semicolon, hsemicolon⟩ := reads_semicolon stop
    have hreads := (hword.trans (Cursor.reads_upTo hprelude)).trans hsemicolon
    exact ⟨hin.covers hreads (by simp), rfl, _, _, [], rfl, hreads, .refl _, rfl⟩
  | block hstatement hbrace hblock =>
    obtain ⟨hblockReads, hne⟩ := Cursor.reads_block hblock
    have hreads := (Cursor.reads_upTo hstatement).trans hblockReads
    exact ⟨⟨hin.covers hreads (by simp [hne]), hin.slice? hreads⟩, rfl, _, _, [], rfl, hreads,
      .refl _, rfl⟩
  | statement hstatement hbrace hat =>
    have hreads := Cursor.reads_upTo hstatement
    refine ⟨⟨hin.covers hreads ?_, hin.slice? hreads⟩, rfl, _, _, [], rfl, hreads, .refl _, rfl⟩
    rintro rfl
    cases hat
  | declaration hstatement hbrace hat h =>
    rename_i statement declaration
    have hreads := Cursor.reads_upTo hstatement
    obtain ⟨hplaced, hspan⟩ := Declaration.placed hin hreads h
    obtain ⟨blanks, hblanks, hall⟩ := Text.trimEnd_append statement
    refine ⟨hplaced, by rw [Node.span, hspan],
      ⟨cur.offset + size (trimEnd statement), blanks ++ next.rest⟩, trimEnd statement, blanks,
      by rw [Node.span, hspan], ⟨?_, rfl⟩, ⟨rfl, ?_⟩, hall⟩
    · rw [← List.append_assoc, hblanks, hreads.rest_eq]
    · rw [hreads.offset_eq, Nat.add_assoc, ← Text.size_append, hblanks]

/-! ### Blocks and whole stylesheets -/

theorem Opens.encloses {head : Head} {brace inside close : Cursor} (h : Opens cur head brace inside)
    (hin : cur.In source) {inner : List Char} (hinner : Reads inside inner close)
    (hclose : Reads close ['}'] next) :
    (Span.mk cur.offset next.offset).Encloses source head brace.offset ∧
      inside.offset = brace.offset + 1 ∧ close.offset = next.offset - 1 ∧
      ∃ taken, Reads cur taken next ∧ taken ≠ [] := by
  obtain ⟨text, htext, hspells, hopening⟩ : ∃ text, Reads cur text brace ∧ head.Spells text ∧
      Reads brace ['{'] inside := by
    cases h with
    | atRule hname hprelude hbrace =>
      obtain ⟨word, hword, heq⟩ := hname.reads
      exact ⟨_, hword.trans (Cursor.reads_upTo hprelude), ⟨word, _, rfl, heq, rfl⟩, hbrace⟩
    | rule hat hselector hbrace => exact ⟨_, Cursor.reads_upTo hselector, rfl, hbrace⟩
  have hbrace := hin.reads htext
  have hinside := hbrace.reads hopening
  have hoffset : inside.offset = brace.offset + 1 := hopening.offset_eq
  have hoffset' : next.offset = close.offset + 1 := hclose.offset_eq
  have hle := hinner.offset_eq
  refine ⟨⟨⟨_, hin.slice? htext, by rwa [String.toList_ofList]⟩, ?_, ?_, ?_⟩, hoffset, by omega,
    _, ((htext.trans hopening).trans hinner).trans hclose, by simp⟩
  · rw [← hoffset]
    exact hbrace.slice? hopening
  · have hstart : next.offset - 1 = close.offset := by omega
    rw [hstart]
    exact (hinside.reads hinner).slice? hclose
  · dsimp only
    omega

/-- Nodes that are read tile the text from any place before which only a gap has been passed. -/
theorem Reading.tiles {nodes : List Node} (h : Reading place cur nodes last) {begun : Cursor}
    {gap : List Char} (hin : begun.In source) (hreads : Reads begun gap cur)
    (hgap : Gap (place = .top) gap) :
    Tiles source (place = .top) begun.offset last.offset nodes := by
  induction h generalizing begun gap with
  | nil => exact ⟨_, hin.slice? hreads, by rwa [String.toList_ofList]⟩
  | separator h others ih =>
    obtain ⟨separator, hseparator, hfirst⟩ := Cursor.separator?_eq_ok_some_iff.mp h
    exact ih hin (hreads.trans hfirst) (hgap.append hseparator.gap)
  | semicolon h others ih => exact ih hin (hreads.trans h) (hgap.append (.semicolon .nil))
  | mark h others ih =>
    obtain ⟨mark, hfirst, hmark⟩ := gap_of_skipMark? h
    exact ih hin (hreads.trans hfirst) (hgap.append hmark)
  | leaf hbegins h others ih =>
    have hcur := hin.reads hreads
    obtain ⟨hplaced, hstart, ended, taken, blanks, hstop, htaken, hblanks, hall⟩ := h.placed hcur
    refine ⟨⟨String.ofList gap, ?_, ?_⟩, hplaced, ?_⟩
    · rw [hstart]
      exact hin.slice? hreads
    · rwa [String.toList_ofList]
    · rw [← hstop]
      exact ih (hcur.reads htaken) hblanks (.of_blanks hall)
  | @block place cur brace inside close next last head children nodes hplace hbegins h inner hclose
      others ihInner ih =>
    have hcur := hin.reads hreads
    obtain ⟨text, hinner⟩ := inner.reads
    obtain ⟨hencloses, hinside, hcloseOffset, taken, htaken, hne⟩ :=
      h.encloses hcur hinner hclose
    obtain ⟨front, hfront, hopening⟩ := h.reads
    have hcovers := hcur.covers htaken hne
    have hchildren := ihInner ((hcur.reads hfront).reads hopening) (.refl inside) .nil
    have hplaceInner : decide (head.place = .top) = false := by
      unfold Head.place
      split <;> rfl
    rw [hplaceInner, hinside, hcloseOffset] at hchildren
    have hspan : (head.node children ⟨cur.offset, next.offset⟩).span =
        ⟨cur.offset, next.offset⟩ := by
      cases head <;> rfl
    refine ⟨⟨String.ofList gap, ?_, ?_⟩, ?_, ?_⟩
    · rw [hspan]
      exact hin.slice? hreads
    · rwa [String.toList_ofList]
    · exact Head.placed_node.mpr ⟨hcovers, brace.offset, hencloses, hchildren⟩
    · rw [hspan]
      exact ih (hcur.reads htaken) (.refl next) .nil

/-- The spans of a stylesheet tile its source. Every node covers a text that is not empty; siblings
follow each other, in order and with meaningless text around them, from the beginning of the source
to its end and from the opening brace of a block to the closing one; text that is kept as it stands
is the text at its span. -/
theorem tiles_of_ofText? {source : String} {nodes : List Node} (h : ofText? source = .ok nodes) :
    Tiles source true 0 (size source.toList) nodes := by
  obtain ⟨last, hreading, hend⟩ := ofText?_eq_ok_iff.mp h
  obtain ⟨taken, hreads⟩ := hreading.reads
  have hlast : last.offset = size source.toList := by
    have hrest := hreads.rest_eq
    rw [hend, List.append_nil] at hrest
    rw [hreads.offset_eq, ← hrest]
    simp [Cursor.start]
  rw [← hlast]
  exact hreading.tiles ⟨[], .refl _⟩ (.refl _) .nil

/-- A stylesheet with marks, comments, a nested rule and a custom property is tiled. -/
theorem tiles_of_ofText?_of_nested :
    ∃ nodes, ofText?
        "<!-- @media é \x7b a\x7b--x: \x7by\x7d ; b:c/**/; d\x7be\x7d \x7d \x7d;/**/ @f;" =
          .ok nodes ∧
      nodes.length = 2 ∧
      Tiles "<!-- @media é \x7b a\x7b--x: \x7by\x7d ; b:c/**/; d\x7be\x7d \x7d \x7d;/**/ @f;" true 0
        (size
          "<!-- @media é \x7b a\x7b--x: \x7by\x7d ; b:c/**/; d\x7be\x7d \x7d \x7d;/**/ @f;".toList)
        nodes := by
  have hlength : (ofText?
      "<!-- @media é \x7b a\x7b--x: \x7by\x7d ; b:c/**/; d\x7be\x7d \x7d \x7d;/**/ @f;").map
        List.length = .ok 2 := by
    decide +kernel
  generalize h : ofText? _ = outcome at hlength
  cases outcome with
  | error fault => cases hlength
  | ok nodes => exact ⟨nodes, rfl, Except.ok.inj hlength, tiles_of_ofText? h⟩

end Sheet

end WebFonts.Css
