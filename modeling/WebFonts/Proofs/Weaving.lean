import WebFonts.Proofs.Insertion

/-!
# A stylesheet with names woven in

When names are inserted behind the first families of some declarations of a stylesheet, it is read
as before, with these names in its declarations. `Sheet.Reading.weave` says this of every part of a
stylesheet, and also in front of another text, as long as the part ends with a block or what follows
it begins with the same character.

The proof follows the grammar. The offsets at which names stand are handed down to the declaration
that takes them (`Owned.split`): everything else is text that stays as it is, and is read in the
same way since a construct looks at one character behind itself at most.
-/

namespace WebFonts.Css

open Text (size)
open Cursor (Reads)

/-! ### Weaving -/

/-- A text that begins at an offset, with names behind its characters. -/
def weaveNames (names : Nat → List String) (offset : Nat) : List Char → List Char
  | [] => []
  | c :: rest =>
    c :: (spell (listing (names (offset + c.utf8Size))) ++
      weaveNames names (offset + c.utf8Size) rest)

section Weave

variable {names : Nat → List String} {offset : Nat}

theorem weaveNames_append (front back : List Char) :
    weaveNames names offset (front ++ back) =
      weaveNames names offset front ++ weaveNames names (offset + size front) back := by
  induction front generalizing offset with
  | nil => rfl
  | cons c front ih =>
    rw [List.cons_append, weaveNames, ih, weaveNames, List.cons_append, List.append_assoc,
      Text.size_cons, Nat.add_assoc]

theorem Cursor.Reads.weave_append {cur next : Cursor} {taken : List Char} (h : Reads cur taken next)
    (text : List Char) :
    weaveNames names cur.offset (taken ++ text) =
      weaveNames names cur.offset taken ++ weaveNames names next.offset text := by
  rw [weaveNames_append, h.offset_eq]

/-- A text stays as it is if no names stand in it. -/
theorem weaveNames_of_nil {text : List Char}
    (h : ∀ other, offset < other → other ≤ offset + size text → names other = []) :
    weaveNames names offset text = text := by
  induction text generalizing offset with
  | nil => rfl
  | cons c text ih =>
    have := c.utf8Size_pos
    rw [Text.size_cons] at h
    rw [weaveNames, h _ (by omega) (by omega),
      ih fun other hlt hle => h other (by omega) (by omega)]
    rfl

/-- Names at one place divide a text there. -/
theorem weaveNames_of_one {before after : List Char} (hne : before ≠ [])
    (h : ∀ other, offset < other → other ≤ offset + size (before ++ after) →
      other ≠ offset + size before → names other = []) :
    weaveNames names offset (before ++ after) =
      before ++ (spell (listing (names (offset + size before))) ++ after) := by
  obtain ⟨front, c, rfl⟩ := (List.eq_nil_or_concat before).resolve_left hne
  have := c.utf8Size_pos
  simp only [List.concat_eq_append, Text.size_append, Text.size_cons, Text.size_nil] at h ⊢
  have hfront : ∀ other, offset < other → other ≤ offset + size front → names other = [] :=
    fun other hlt hle => h other (by omega) (by omega) (by omega)
  have hafter : ∀ other, offset + size (front ++ [c]) < other →
      other ≤ offset + size (front ++ [c]) + size after → names other = [] := by
    intro other hlt hle
    simp only [Text.size_append, Text.size_cons, Text.size_nil] at hlt hle
    exact h other (by omega) (by omega) (by omega)
  rw [weaveNames_append, weaveNames_append, weaveNames_of_nil hfront, weaveNames_of_nil hafter]
  simp only [weaveNames, List.append_nil, List.append_assoc, List.cons_append, List.nil_append,
    Nat.add_zero, Nat.add_assoc]

/-- What is rendered of an overlay is its source with names woven in, if it inserts names. -/
theorem weave_eq_weaveNames {overlay : Overlay}
    (h : ∀ other, (overlay.insertedAt other).toList = spell (listing (names other)))
    (text : List Char) :
    overlay.weave offset text =
      spell (listing (names offset)) ++ weaveNames names offset text := by
  induction text generalizing offset with
  | nil => rw [Overlay.weave, h, weaveNames, List.append_nil]
  | cons c text ih => rw [Overlay.weave, h, ih, weaveNames]

end Weave

/-! ### The declarations that take names -/

/-- A declaration takes the names at an offset: its first family ends there, no address stands in
its value, and no line feed in the names. -/
def Declaration.Takes (names : Nat → List String) (declaration : Declaration) (offset : Nat) :
    Prop :=
  ∃ components, declaration.value = .components components ∧
    Component.anyHasUrl components = false ∧
    (NamedFamilies.ofValue declaration.property components).firstStop = some offset ∧
    ∀ name ∈ names offset, '\n' ∉ name.toList

/-- Between two offsets, names stand only where declarations take them. -/
def Owned (names : Nat → List String) (start stop : Nat) (declarations : List Declaration) : Prop :=
  ∀ offset, start < offset → offset ≤ stop → names offset ≠ [] →
    ∃ declaration ∈ declarations, declaration.Takes names offset

section Owned

variable {names : Nat → List String} {source : String} {start middle stop : Nat}
  {front back : List Declaration}

theorem Owned.eq_nil (h : Owned names start stop []) {offset : Nat} (hstart : start < offset)
    (hstop : offset ≤ stop) : names offset = [] := by
  by_contra hne
  obtain ⟨declaration, hmem, -⟩ := h offset hstart hstop hne
  cases hmem

theorem InOrder.inside {declaration : Declaration} {offset : Nat}
    (h : InOrder source start stop front) (hmem : declaration ∈ front)
    (htakes : declaration.Takes names offset) : start < offset ∧ offset ≤ stop := by
  obtain ⟨components, hvalue, -, hstop, -⟩ := htakes
  have hfamilies : NamedFamilies.ofDeclaration? declaration =
      .ok (.ofValue declaration.property components) := by
    rw [NamedFamilies.ofDeclaration?, hvalue]
  have hinside := (h.readFrom declaration hmem).spliceInside hfamilies hstop
  have := hinside.behind_start
  have := hinside.le_stop
  have := h.within declaration hmem
  omega

/-- A declaration takes names at one offset only. -/
theorem Declaration.Takes.unique {declaration : Declaration} {offset other : Nat}
    (h : declaration.Takes names offset) (hother : declaration.Takes names other) :
    other = offset := by
  obtain ⟨components, hvalue, -, hstop, -⟩ := h
  obtain ⟨components', hvalue', -, hstop', -⟩ := hother
  rw [hvalue] at hvalue'
  cases hvalue'
  rw [hstop] at hstop'
  exact (Option.some.inj hstop').symm

/-- In a single declaration, names stand only where it takes them. -/
theorem Owned.eq_nil_of_ne {declaration : Declaration} {taken offset : Nat}
    (h : Owned names start stop [declaration]) (htakes : declaration.Takes names taken)
    (hstart : start < offset) (hstop : offset ≤ stop) (hne : offset ≠ taken) :
    names offset = [] := by
  by_contra hnames
  obtain ⟨other, hmem, hother⟩ := h offset hstart hstop hnames
  obtain rfl := List.mem_singleton.mp hmem
  exact hne (htakes.unique hother)

/-- Names stand where the declarations around them take them. -/
theorem Owned.split (h : Owned names start stop (front ++ back))
    (hfront : InOrder source start middle front) (hback : InOrder source middle stop back)
    (hstart : start ≤ middle) (hstop : middle ≤ stop) :
    Owned names start middle front ∧ Owned names middle stop back := by
  constructor
  · intro offset hlt hle hne
    obtain ⟨declaration, hmem, htakes⟩ := h offset hlt (by omega) hne
    rcases List.mem_append.mp hmem with hmem | hmem
    · exact ⟨declaration, hmem, htakes⟩
    · have := hback.inside hmem htakes
      omega
  · intro offset hlt hle hne
    obtain ⟨declaration, hmem, htakes⟩ := h offset (by omega) hle hne
    rcases List.mem_append.mp hmem with hmem | hmem
    · have := hfront.inside hmem htakes
      omega
    · exact ⟨declaration, hmem, htakes⟩

end Owned

/-- Whether a node ends with a block. -/
def Node.hasBlock : Node → Bool
  | .rule .. => true
  | .atRule _ _ block _ => block.isSome
  | _ => false

/-! ### Constructs in front of another text -/

/-- A span that begins with its text, at another offset. -/
theorem Span.shift_mk_zero (length offset : Nat) :
    (Span.mk 0 length).shift offset = ⟨offset, offset + length⟩ := by
  rw [shift, Nat.zero_add, Nat.add_comm]

theorem Node.bare_shift (distance : Nat) (node : Node) :
    (node.shift distance).bare = node.bare := by
  rw [Node.bare, Node.bare, Node.shift_eq_change, Node.splice_eq_change, Node.splice_eq_change]
  exact Node.change_change (fun _ => rfl) (Declaration.bare_shift distance) (fun _ => rfl) node

theorem AtToken.congr {front rest rest' : List Char} (h : AtToken (front ++ rest))
    (hne : front ≠ []) (hhead : rest.head? = rest'.head? ∨ 2 ≤ front.length) :
    AtToken (front ++ rest') := by
  obtain ⟨c, front, rfl⟩ := List.exists_cons_of_ne_nil hne
  refine ⟨h.1, fun heq => ?_⟩
  have hstar := h.2 heq
  cases front with
  | nil =>
    rcases hhead with hhead | hlength
    · change rest'.head? ≠ some '*'
      rwa [← hhead]
    · simp at hlength
  | cons d front => exact hstar

theorem spanName_congr {text rest rest' : List Char} (h : (spanName (text ++ rest)).1 = [])
    (hhead : rest.head? = rest'.head?) (hescape : rest.head? ≠ some '\\') :
    (spanName (text ++ rest')).1 = [] := by
  obtain ⟨hlone, hname⟩ := spanName_eq_nil_iff.mp h
  refine spanName_eq_nil_iff.mpr ⟨fun c tail heq => ?_, fun c hc => ?_⟩
  · cases text with
    | nil =>
      rw [List.nil_append] at heq
      rw [hhead, heq] at hescape
      exact hescape rfl
    | cons d text =>
      cases heq' : text ++ rest with
      | nil =>
        obtain ⟨rfl, rfl⟩ := List.append_eq_nil_iff.mp heq'
        cases rest' with
        | nil => cases heq
        | cons => cases hhead
      | cons e others =>
        obtain ⟨rfl, -⟩ := List.cons.inj heq
        refine hlone e others ?_
        rw [List.cons_append, heq']
  · refine hname c ?_
    cases text with
    | nil => rwa [List.nil_append, hhead]
    | cons => exact hc

/-- A statement ends where it did with lexemes in it that close whatever they open. -/
theorem Cursor.upTo_insert {cur next : Cursor} {before after rest' : List Char}
    {inserted : List Lexeme} (h : cur.upTo Sheet.stops 0 = .ok (before ++ after, next))
    (hbefore : Whole before) (hinserted : Flows inserted)
    (hhead : next.rest.head? = rest'.head?) (offset : Nat) :
    (Cursor.mk offset (before ++ (spell inserted ++ after) ++ rest')).upTo Sheet.stops 0 =
      .ok (before ++ (spell inserted ++ after),
        ⟨offset + size (before ++ (spell inserted ++ after)), rest'⟩) := by
  obtain ⟨front, rfl, hfront⟩ := hbefore
  obtain ⟨-, lexemes, hlexemes, hlexes, hpasses, hhalts⟩ := (upTo_eq_ok_iff Sheet.plain_stops).mp h
  obtain ⟨tail, rfl, rfl⟩ := hlexes.split (hfront _) hlexemes.symm
  obtain ⟨hpassesFront, hpassesTail⟩ := passes_append.mp hpasses
  have hlexesTail := (lexes_append.mp hlexes).2.congr hhead
  refine (upTo_eq_ok_iff Sheet.plain_stops).mpr
    ⟨⟨rfl, rfl⟩, front ++ (inserted ++ tail), ?_, ?_, ?_, ?_⟩
  · rw [spell_append, spell_append]
  · exact lexes_append.mpr ⟨hfront _, lexes_append.mpr ⟨hinserted.lexes _, hlexesTail⟩⟩
  · refine passes_append.mpr ⟨hpassesFront, passes_append.mpr ⟨hinserted.passes _, ?_⟩⟩
    rwa [hinserted.balanced]
  · rw [depthBehind_append, depthBehind_append, hinserted.balanced]
    rw [depthBehind_append] at hhalts
    exact hhalts.congr hhead

namespace Sheet

variable {place : Place} {cur next last : Cursor}

/-- Whether a mark stands at the beginning of a text is decided before its first brace. -/
theorem skipMark?_congr {text rest : List Char} (h : skipMark? cur = none)
    (hrest : cur.rest = text ++ '{' :: rest) (offset : Nat) (rest' : List Char) :
    skipMark? ⟨offset, text ++ '{' :: rest'⟩ = none := by
  unfold skipMark? at h ⊢
  rw [hrest] at h
  rcases text with _ | ⟨a, _ | ⟨b, _ | ⟨c, _ | ⟨d, text⟩⟩⟩⟩
  · rfl
  · simp_all
  · simp_all
  · simp only [List.cons_append, List.nil_append] at h ⊢
    split at h
    · cases h
    · cases h
    · split
      · simp_all
      · simp_all
      · rfl
  · simp only [List.cons_append] at h ⊢
    split at h
    · cases h
    · cases h
    · split
      · simp_all
      · simp_all
      · rfl

theorem skipMark?_at (offset : Nat) (rest : List Char) : skipMark? ⟨offset, '@' :: rest⟩ = none :=
  rfl

theorem Begins.congr {cur' : Cursor} {front rest rest' : List Char} (h : Begins place cur)
    (hrest : cur.rest = front ++ rest) (hrest' : cur'.rest = front ++ rest') (hne : front ≠ [])
    (hhead : rest.head? = rest'.head? ∨ 2 ≤ front.length)
    (hmark : place = .top → skipMark? cur' = none) : Begins place cur' := by
  have hsame : cur'.rest.head? = cur.rest.head? := by
    rw [hrest, hrest', List.head?_append_of_ne_nil _ hne, List.head?_append_of_ne_nil _ hne]
  refine ⟨?_, ?_, hsame ▸ h.ne_brace, hsame ▸ h.ne_semicolon, hmark⟩
  · rw [hrest']
    exact AtToken.congr (hrest ▸ h.atToken) hne hhead
  · rw [hrest']
    simp [hne]

/-- A node with a block begins in the same way whatever stands behind its brace. -/
theorem Begins.recut {text : List Char} (h : Begins place cur)
    (hreads : Reads cur (text ++ ['{']) next) (offset : Nat) (rest' : List Char) :
    Begins place ⟨offset, text ++ '{' :: rest'⟩ := by
  have hrest : cur.rest = text ++ '{' :: next.rest := by rw [hreads.rest_eq]; simp
  have hmark (hplace : place = .top) : skipMark? ⟨offset, text ++ '{' :: rest'⟩ = none :=
    skipMark?_congr (h.no_mark hplace) hrest offset rest'
  cases text with
  | nil => exact ⟨atToken_of_ne (by decide) (by decide), nofun, nofun, nofun, hmark⟩
  | cons c text =>
    have hrest' : c :: text ++ '{' :: rest' = (c :: text ++ ['{']) ++ rest' := by simp
    exact h.congr hreads.rest_eq hrest' (by simp) (.inr (by simp)) hmark

theorem Named.recut {name : String} (h : Named cur name next) :
    ∃ word, Reads cur ('@' :: word) next ∧ Whole ('@' :: word) ∧ (spanName next.rest).1 = [] ∧
      ∀ offset rest, (spanName rest).1 = [] →
        Named ⟨offset, '@' :: word ++ rest⟩ name ⟨offset + size ('@' :: word), rest⟩ := by
  obtain ⟨named, word, hat, hword, rfl⟩ := h
  have hreads := Cursor.reads_char? hat
  refine ⟨word, hreads.trans (Cursor.reads_identifier? hword).1, ?_,
    Cursor.spanName_after_identifier? hword, fun offset rest hrest => ?_⟩
  · exact .cons (by decide) (by decide) (by decide) (Cursor.whole_of_identifier? hword)
  · refine ⟨⟨offset + size ['@'], word ++ rest⟩, word, rfl, ?_, rfl⟩
    rw [Cursor.identifier?_recut hword hrest]
    simp only [Text.size_cons, Text.size_nil, Nat.add_assoc, Nat.add_zero]

/-- The characters at which a prelude or a statement ends are no backslashes. -/
theorem head?_ne_of_halts {rest : List Char} {depth : Nat} (h : Halts stops depth rest) :
    rest.head? ≠ some '\\' := by
  rcases h with rfl | ⟨-, c, hc, hhead⟩
  · nofun
  · rw [hhead]
    rintro ⟨⟩
    exact absurd hc (by decide)

/-- The name and the prelude of an at-rule are read in front of every text that begins alike. -/
theorem Named.recut_prelude {name : String} {prelude : List Char} {stop : Cursor}
    (h : Named cur name next) (hprelude : next.upTo stops 0 = .ok (prelude, stop)) :
    ∃ word, Reads cur (word ++ prelude) stop ∧ ∀ offset rest, stop.rest.head? = rest.head? →
      Named ⟨offset, word ++ (prelude ++ rest)⟩ name ⟨offset + size word, prelude ++ rest⟩ ∧
        (Cursor.mk (offset + size word) (prelude ++ rest)).upTo stops 0 =
          .ok (prelude, ⟨offset + size (word ++ prelude), rest⟩) := by
  obtain ⟨word, hword, -, hafter, hrecut⟩ := h.recut
  obtain ⟨hreads, lexemes, -, -, -, hhalts⟩ := (Cursor.upTo_eq_ok_iff plain_stops).mp hprelude
  rw [hreads.rest_eq] at hafter
  refine ⟨'@' :: word, hword.trans hreads, fun offset rest hhead => ⟨?_, ?_⟩⟩
  · exact hrecut offset _ (spanName_congr hafter hhead (head?_ne_of_halts hhalts))
  · rw [Text.size_append, ← Nat.add_assoc]
    exact Cursor.upTo_congr plain_stops hprelude hhead _

/-- The head of a block is read in front of every block. -/
theorem Opens.recut {head : Head} {brace inside : Cursor} (h : Opens cur head brace inside) :
    ∃ text, Reads cur (text ++ ['{']) inside ∧
      ∀ offset rest, Opens ⟨offset, text ++ '{' :: rest⟩ head ⟨offset + size text, '{' :: rest⟩
        ⟨offset + size (text ++ ['{']), rest⟩ := by
  cases h with
  | @atRule next brace inside name prelude hname hprelude hbrace =>
    obtain ⟨word, hreads, hrecut⟩ := hname.recut_prelude hprelude
    refine ⟨word ++ prelude, hreads.trans hbrace, fun offset rest => ?_⟩
    have hhead : brace.rest.head? = ('{' :: rest).head? := by rw [hbrace.rest_eq]; rfl
    obtain ⟨hname', hprelude'⟩ := hrecut offset _ hhead
    rw [List.append_assoc]
    refine .atRule hname' hprelude' ⟨rfl, ?_⟩
    simp only [Text.size_append, Nat.add_assoc]
  | @rule brace inside selector hat hselector hbrace =>
    have hreads := Cursor.reads_upTo hselector
    refine ⟨selector, hreads.trans hbrace, fun offset rest => ?_⟩
    have hhead : brace.rest.head? = ('{' :: rest).head? := by rw [hbrace.rest_eq]; rfl
    refine .rule ?_ (Cursor.upTo_congr plain_stops hselector hhead offset) ⟨rfl, ?_⟩
    · rw [Cursor.char?_eq_none_iff] at hat ⊢
      rw [hreads.rest_eq, List.head?_append, hhead] at hat
      rwa [List.head?_append]
    · simp only [Text.size_append, Nat.add_assoc]

theorem Leaf.of_atRule {offset stop' : Nat} {rest rest' : List Char} {stop : Cursor}
    {name : String} {prelude : List Char} (hplace : place.holdsRules = true)
    (hname : Named ⟨offset, rest⟩ name next) (hprelude : next.upTo stops 0 = .ok (prelude, stop))
    (hbrace : stop.rest.head? ≠ some '{') (hlast : (stop.char? ';').getD stop = ⟨stop', rest'⟩) :
    Leaf ⟨offset, rest⟩ place
      (.atRule name (String.ofList (Text.trim prelude)) none ⟨offset, stop'⟩) ⟨stop', rest'⟩ := by
  have hleaf := Leaf.atRule hplace hname hprelude hbrace
  rwa [hlast] at hleaf

/-- A node without a block that is read is read in front of every text that begins alike, at every
offset. -/
theorem Leaf.recut {node : Node} {text rest' : List Char} (h : Leaf cur place node next)
    (hreads : Reads cur text next) (hhead : next.rest.head? = rest'.head?) :
    ∃ base : Node, node = base.shift cur.offset ∧ ∀ offset,
      Leaf ⟨offset, text ++ rest'⟩ place (base.shift offset) ⟨offset + size text, rest'⟩ := by
  cases h with
  | @atRule _ next stop name prelude hplace hname hprelude hbrace =>
    obtain ⟨word, hword, hrecut⟩ := hname.recut_prelude hprelude
    refine ⟨.atRule name (String.ofList (Text.trim prelude)) none ⟨0, size text⟩, ?_,
      fun offset => ?_⟩
    · rw [Node.shift, Span.shift_mk_zero, hreads.offset_eq]
    rw [Node.shift, Span.shift_mk_zero]
    cases hsemi : stop.char? ';' with
    | some last =>
      rw [hsemi, Option.getD_some] at hreads hhead
      have hlast := Cursor.reads_char? hsemi
      obtain rfl := hreads.unique (hword.trans hlast)
      have hheadStop : stop.rest.head? = (';' :: rest').head? := by rw [hlast.rest_eq]; rfl
      obtain ⟨hname', hprelude'⟩ := hrecut offset _ hheadStop
      have htext : word ++ prelude ++ [';'] ++ rest' = word ++ (prelude ++ ';' :: rest') := by simp
      rw [htext]
      refine .of_atRule hplace hname' hprelude' (by simp) ?_
      rw [Cursor.char?_of_cons rfl, Option.getD_some, Cursor.pass]
      simp only [Text.size_append, Nat.add_assoc]
    | none =>
      rw [hsemi, Option.getD_none] at hreads hhead
      obtain rfl := hreads.unique hword
      obtain ⟨hname', hprelude'⟩ := hrecut offset _ hhead
      have hsemi' : (Cursor.mk (offset + size (word ++ prelude)) rest').char? ';' = none := by
        rw [Cursor.char?_eq_none_iff] at hsemi ⊢
        rwa [← hhead]
      rw [List.append_assoc]
      refine .of_atRule hplace hname' hprelude' (hhead ▸ hbrace) ?_
      rw [hsemi', Option.getD_none]
  | @block brace last statement block hstatement hbrace hblock =>
    have hreadsStatement := Cursor.reads_upTo hstatement
    obtain ⟨hreadsBlock, hne⟩ := Cursor.reads_block hblock
    obtain rfl := hreads.unique (hreadsStatement.trans hreadsBlock)
    have hheadBrace : brace.rest.head? = (block ++ rest').head? := by
      rw [hreadsBlock.rest_eq, List.head?_append_of_ne_nil _ hne, List.head?_append_of_ne_nil _ hne]
    refine ⟨.raw ⟨String.ofList (statement ++ block), ⟨0, size (statement ++ block)⟩⟩, ?_,
      fun offset => ?_⟩
    · rw [Node.shift, Raw.shift, Span.shift_mk_zero, hreads.offset_eq]
    · have hstatement' := Cursor.upTo_congr plain_stops hstatement hheadBrace offset
      have hblock' := Cursor.block_congr hblock (offset + size statement) rest'
      rw [Node.shift, Raw.shift, Span.shift_mk_zero, List.append_assoc, Text.size_append,
        ← Nat.add_assoc]
      exact .block hstatement' (hheadBrace ▸ hbrace) hblock'
  | @statement stop statement hstatement hbrace hat =>
    obtain rfl := hreads.unique (Cursor.reads_upTo hstatement)
    refine ⟨.raw ⟨String.ofList text, ⟨0, size text⟩⟩, ?_, fun offset => ?_⟩
    · rw [Node.shift, Raw.shift, Span.shift_mk_zero, hreads.offset_eq]
    · rw [Node.shift, Raw.shift, Span.shift_mk_zero]
      exact .statement (Cursor.upTo_congr plain_stops hstatement hhead offset) (hhead ▸ hbrace) hat
  | @declaration stop statement declaration hstatement hbrace hat hread =>
    obtain rfl := hreads.unique (Cursor.reads_upTo hstatement)
    rw [Declaration.ofStatement?_at] at hread
    cases hfound : Declaration.ofStatement? (.start text) with
    | error fault => rw [hfound] at hread; cases hread
    | ok found =>
      rw [hfound] at hread
      cases hread
      refine ⟨.declaration found, rfl, fun offset => ?_⟩
      refine .declaration (Cursor.upTo_congr plain_stops hstatement hhead offset)
        (hhead ▸ hbrace) hat ?_
      rw [Declaration.ofStatement?_at, hfound]
      rfl

/-! ### Nodes with names woven in -/

section Weave

variable {names : Nat → List String} {source : String} {parent : Option Node}

theorem Leaf.text_ne_nil {node : Node} {text : List Char} (h : Leaf cur place node next)
    (hin : cur.In source) (hreads : Reads cur text next) : text ≠ [] := by
  rintro rfl
  obtain ⟨hplaced, hstart, ended, taken, blanks, hstop, htaken, hblanks, -⟩ := h.placed hin
  have hcovers : node.span.Covers source := by
    cases h <;> first | exact hplaced | exact hplaced.1
  have := hcovers.1
  have := htaken.offset_eq
  have := hblanks.offset_eq
  have hsame : next.offset = cur.offset := hreads.offset_eq
  omega

theorem Leaf.no_mark {node : Node} {text : List Char} (h : Leaf cur place node next)
    (hplace : place = .top) (hreads : Reads cur text next) (hne : text ≠ []) (offset : Nat)
    (rest : List Char) : skipMark? ⟨offset, text ++ rest⟩ = none := by
  cases h with
  | atRule _ hname _ _ =>
    obtain ⟨named, word, hat, -⟩ := hname
    obtain ⟨c, text, rfl⟩ := List.exists_cons_of_ne_nil hne
    have hrest := hreads.rest_eq
    rw [(Cursor.reads_char? hat).rest_eq] at hrest
    obtain ⟨rfl, -⟩ := List.cons.inj hrest
    exact skipMark?_at ..
  | block => cases hplace
  | statement => cases hplace
  | declaration => cases hplace

/-- A node without a block stays the same if no names stand in it. -/
theorem Leaf.weave_of_nil {node : Node} {text rest' : List Char} (h : Leaf cur place node next)
    (hin : cur.In source) (hbegins : Begins place cur) (hreads : Reads cur text next)
    (hhead : next.rest.head? = rest'.head?)
    (hnone : ∀ other, cur.offset < other → other ≤ next.offset → names other = [])
    (offset : Nat) :
    ∃ node', Leaf ⟨offset, text ++ rest'⟩ place node' ⟨offset + size text, rest'⟩ ∧
      Begins place ⟨offset, text ++ rest'⟩ ∧ node'.bare = node.splice names := by
  have hne := h.text_ne_nil hin hreads
  obtain ⟨base, hnode, hleaf⟩ := h.recut hreads hhead
  refine ⟨base.shift offset, hleaf offset, ?_, ?_⟩
  · exact hbegins.congr hreads.rest_eq rfl hne (.inl hhead) fun hplace =>
      h.no_mark hplace hreads hne offset rest'
  · rw [Node.bare_shift, ← Node.bare_shift cur.offset, ← hnode]
    cases h with
    | atRule => rfl
    | block => rfl
    | statement => rfl
    | declaration hstatement hbrace hat hread =>
      have hstop := (Cursor.reads_upTo hstatement).offset_eq
      refine congrArg Node.declaration (Declaration.splice_of_nil ?_).symm
      intro components hcomponents component hmem
      have hwithin := Declaration.stop_within hread hcomponents component hmem
      exact hnone _ hwithin.1 (hstop ▸ hwithin.2)

/-- A declaration is read with the names in it that it takes. -/
theorem Leaf.weave_of_takes {declaration : Declaration} {text rest' : List Char} {stop : Nat}
    (hbegins : Begins .declarations cur) (hstatement : cur.upTo stops 0 = .ok (text, next))
    (hbrace : next.rest.head? ≠ some '{') (hat : text.head? ≠ some '@')
    (hread : Declaration.ofStatement? ⟨cur.offset, text⟩ = .ok declaration)
    (howned : Owned names cur.offset next.offset [declaration])
    (htakes : declaration.Takes names stop) (hnames : names stop ≠ [])
    (hhead : next.rest.head? = rest'.head?) (offset : Nat) :
    ∃ node', Leaf ⟨offset, weaveNames names cur.offset text ++ rest'⟩ .declarations node'
        ⟨offset + size (weaveNames names cur.offset text), rest'⟩ ∧
      Begins .declarations ⟨offset, weaveNames names cur.offset text ++ rest'⟩ ∧
      node'.bare = (Node.declaration declaration).splice names := by
  have hreads := Cursor.reads_upTo hstatement
  have honly : ∀ other, cur.offset < other → other ≤ cur.offset + size text → other ≠ stop →
      names other = [] := fun other hlt hle hother =>
    howned.eq_nil_of_ne htakes hlt (hreads.offset_eq ▸ hle) hother
  obtain ⟨components, hcomponents, hurl, hstop, hbreak⟩ := htakes
  obtain ⟨before, after, rfl, rfl, hwhole, hlength, hsplice⟩ :=
    Declaration.ofStatement?_splice hread hcomponents hurl hstop hbreak hnames honly
  have hbefore : before ≠ [] := List.ne_nil_of_length_pos (by omega)
  obtain ⟨declaration', hread', hbare⟩ := hsplice offset
  rw [weaveNames_of_one hbefore honly]
  refine ⟨_, .declaration (Cursor.upTo_insert hstatement hwhole (flows_listing hbreak) hhead offset)
    (hhead ▸ hbrace) ?_ hread', ?_, ?_⟩
  · rwa [List.head?_append_of_ne_nil _ hbefore] at hat ⊢
  · have hrest : cur.rest = before ++ (after ++ next.rest) := by
      rw [hreads.rest_eq, List.append_assoc]
    exact hbegins.congr hrest (List.append_assoc ..) hbefore (.inr hlength) nofun
  · unfold Declaration.bare at hbare
    rw [Node.bare, Node.splice, Node.splice, hbare]

/-- A node without a block is read with names in it, which only a declaration takes. -/
theorem Leaf.weave {node : Node} {text rest' : List Char} (h : Leaf cur place node next)
    (hin : cur.In source) (hbegins : Begins place cur)
    (howned : Owned names cur.offset next.offset (node.declarations parent))
    (hreads : Reads cur text next) (hhead : next.rest.head? = rest'.head?) (offset : Nat) :
    ∃ node', Leaf ⟨offset, weaveNames names cur.offset text ++ rest'⟩ place node'
        ⟨offset + size (weaveNames names cur.offset text), rest'⟩ ∧
      Begins place ⟨offset, weaveNames names cur.offset text ++ rest'⟩ ∧
      node'.bare = node.splice names := by
  by_cases hnone : ∀ other, cur.offset < other → other ≤ next.offset → names other = []
  · rw [weaveNames_of_nil fun other hlt hle => hnone other hlt (hreads.offset_eq ▸ hle)]
    exact h.weave_of_nil hin hbegins hreads hhead hnone offset
  · simp only [not_forall] at hnone
    obtain ⟨stop, hlt, hle, hnames⟩ := hnone
    obtain ⟨declaration, hmem, htakes⟩ := howned stop hlt hle hnames
    cases h with
    | atRule => cases hmem
    | block => cases hmem
    | statement => cases hmem
    | declaration hstatement hbrace hat hread =>
      obtain rfl := List.mem_singleton.mp hmem
      obtain rfl := hreads.unique (Cursor.reads_upTo hstatement)
      exact Leaf.weave_of_takes hbegins hstatement hbrace hat hread howned htakes hnames hhead
        offset

/-! ### Stylesheets with names woven in -/

/-- Some text stands in front of the last node. -/
theorem Reading.offset_lt {nodes : List Node} (h : Reading place cur nodes last)
    (hin : cur.In source) (hne : nodes ≠ []) : cur.offset < last.offset := by
  induction h with
  | nil => exact absurd rfl hne
  | separator h others ih =>
    obtain ⟨separator, hfirst, -⟩ := Cursor.reads_separator? h
    exact hfirst.offset_le.trans_lt (ih (hin.reads hfirst) hne)
  | semicolon h others ih => exact h.offset_le.trans_lt (ih (hin.reads h) hne)
  | mark h others ih =>
    obtain ⟨mark, hfirst⟩ := reads_skipMark? h
    exact hfirst.offset_le.trans_lt (ih (hin.reads hfirst) hne)
  | leaf hbegins h others ih =>
    obtain ⟨text, hfirst⟩ := h.reads
    obtain ⟨taken, hothers⟩ := others.reads
    exact (hfirst.offset_lt (h.text_ne_nil hin hfirst)).trans_le hothers.offset_le
  | block hplace hbegins h inner hclose others ihInner ih =>
    obtain ⟨text, hopening, -⟩ := h.recut
    obtain ⟨children, hinner⟩ := inner.reads
    obtain ⟨taken, hothers⟩ := others.reads
    exact (hopening.offset_lt (by simp)).trans_le ((hinner.trans hclose).trans hothers).offset_le

/-- Nodes that do not end with a statement, which could reach into the text behind it. -/
def Settled (nodes : List Node) : Prop :=
  ∀ node, nodes.getLast? = some node → node.hasBlock = true

theorem Settled.of_cons {node : Node} {nodes : List Node} (h : Settled (node :: nodes)) :
    Settled nodes := by
  intro last hlast
  refine h last ?_
  rw [List.getLast?_cons, hlast]
  rfl

theorem Leaf.hasBlock_eq_false {node : Node} (h : Leaf cur place node next) :
    node.hasBlock = false := by
  cases h <;> rfl

/-- A node without a block is not the last one of settled nodes. -/
theorem Leaf.others_ne_nil {node : Node} {nodes : List Node} (h : Leaf cur place node next)
    (hsettled : Settled (node :: nodes)) : nodes ≠ [] := by
  intro hnil
  have hblock := hsettled node (by rw [hnil]; rfl)
  rw [h.hasBlock_eq_false] at hblock
  cases hblock

theorem skipMark?_recut (h : skipMark? cur = some next) :
    ∃ mark, Reads cur mark next ∧
      ∀ offset rest, skipMark? ⟨offset, mark ++ rest⟩ = some ⟨offset + size mark, rest⟩ := by
  unfold skipMark? at h
  split at h <;> cases h
  · exact ⟨_, Cursor.reads_pass ‹_›, fun _ _ => rfl⟩
  · exact ⟨_, Cursor.reads_pass ‹_›, fun _ _ => rfl⟩

/-- What follows a text begins as before when names are woven into it. -/
theorem Reading.head?_weave (names : Nat → List String) {nodes : List Node} {text rest' : List Char}
    (h : Reading place cur nodes last) (hin : cur.In source) (hreads : Reads cur text last)
    (hrest : last.rest.head? = rest'.head? ∨ nodes ≠ []) (offset : Nat) :
    cur.rest.head? = (weaveNames names offset text ++ rest').head? := by
  cases text with
  | nil =>
    rcases hrest with hhead | hne
    · rw [hreads.rest_eq]
      exact hhead
    · have := h.offset_lt hin hne
      have hsame : last.offset = cur.offset := hreads.offset_eq
      omega
  | cons => rw [hreads.rest_eq]; rfl

/-- Text in front of the declarations stays as it is. -/
theorem Reading.owned_of_reads {nodes : List Node} {skipped : List Char}
    (h : Reading place next nodes last) (hin : cur.In source) (hfirst : Reads cur skipped next)
    (howned : Owned names cur.offset last.offset (declarationsIn parent nodes)) :
    Owned names next.offset last.offset (declarationsIn parent nodes) ∧
      ∀ text, weaveNames names cur.offset (skipped ++ text) =
        skipped ++ weaveNames names next.offset text := by
  obtain ⟨taken, hothers⟩ := h.reads
  obtain ⟨hnone, howned⟩ := howned.split (.nil ..)
    (h.declarations (hin.reads hfirst) parent) hfirst.offset_le hothers.offset_le
  refine ⟨howned, fun text => ?_⟩
  rw [hfirst.weave_append,
    weaveNames_of_nil fun other hlt hle => hnone.eq_nil hlt (hfirst.offset_eq ▸ hle)]

/-- In a block names stand only where its children take them. -/
theorem Reading.owned_of_block {head : Head} {inside close : Cursor} {children nodes : List Node}
    {front taken : List Char} (inner : Reading head.place inside children close)
    (others : Reading place next nodes last) (hin : cur.In source) (hfront : Reads cur front inside)
    (hinner : Reads inside taken close) (hclose : Reads close ['}'] next)
    (howned : Owned names cur.offset last.offset
      (declarationsIn parent (head.node children ⟨cur.offset, next.offset⟩ :: nodes))) :
    Owned names inside.offset close.offset
        (declarationsIn (some (head.node children ⟨cur.offset, next.offset⟩)) children) ∧
      Owned names next.offset last.offset (declarationsIn parent nodes) ∧
      ∀ text, weaveNames names cur.offset (front ++ taken ++ ['}'] ++ text) =
        front ++ weaveNames names inside.offset taken ++ ['}'] ++
          weaveNames names next.offset text := by
  obtain ⟨behind, hbehind⟩ := others.reads
  have hinInside := hin.reads hfront
  have hinNext := hinInside.reads (hinner.trans hclose)
  have hchildren := inner.declarations hinInside
    (some (head.node children ⟨cur.offset, next.offset⟩))
  rw [declarationsIn_cons, declarations_node] at howned
  obtain ⟨hblock, howned⟩ := howned.split
    (hchildren.widen hfront.offset_le hclose.offset_le) (others.declarations hinNext parent)
    (hfront.trans (hinner.trans hclose)).offset_le hbehind.offset_le
  -- no names stand in the head of the block, nor behind its last declaration
  obtain ⟨hhead, hblock⟩ := hblock.split (.nil ..) (hchildren.widen le_rfl hclose.offset_le)
    hfront.offset_le (hinner.trans hclose).offset_le
  obtain ⟨hownedInner, hend⟩ := (List.append_nil _ ▸ hblock :
      Owned names inside.offset next.offset (declarationsIn _ children ++ [])).split hchildren
    (.nil ..) hinner.offset_le hclose.offset_le
  have hweaveFront : weaveNames names cur.offset front = front :=
    weaveNames_of_nil fun other hlt hle => hhead.eq_nil hlt (hfront.offset_eq ▸ hle)
  have hweaveClose : weaveNames names close.offset ['}'] = ['}'] :=
    weaveNames_of_nil fun other hlt hle => hend.eq_nil hlt (hclose.offset_eq ▸ hle)
  refine ⟨hownedInner, howned, fun text => ?_⟩
  rw [((hfront.trans hinner).trans hclose).weave_append, (hfront.trans hinner).weave_append,
    hfront.weave_append, hweaveFront, hweaveClose]

/-- A block that is followed by some nodes, with the text of its children written out. -/
theorem Reading.of_block {head : Head} {children nodes : List Node} {front inner rest : List Char}
    {offset : Nat} (hplace : place.holdsRules = true)
    (hbegins : Begins place ⟨offset, front ++ '{' :: (inner ++ '}' :: rest)⟩)
    (h : Opens ⟨offset, front ++ '{' :: (inner ++ '}' :: rest)⟩ head
      ⟨offset + size front, '{' :: (inner ++ '}' :: rest)⟩
      ⟨offset + size (front ++ ['{']), inner ++ '}' :: rest⟩)
    (hinner : Reading head.place ⟨offset + size (front ++ ['{']), inner ++ '}' :: rest⟩ children
      ⟨offset + size (front ++ ['{']) + size inner, '}' :: rest⟩)
    (hothers : Reading place ⟨offset + size (front ++ ['{'] ++ inner ++ ['}']), rest⟩ nodes last) :
    Reading place ⟨offset, front ++ ['{'] ++ inner ++ ['}'] ++ rest⟩
      (head.node children ⟨offset, offset + size (front ++ ['{'] ++ inner ++ ['}'])⟩ :: nodes)
        last := by
  have htext : front ++ ['{'] ++ inner ++ ['}'] ++ rest =
      front ++ '{' :: (inner ++ '}' :: rest) := by
    simp
  rw [htext]
  refine .block hplace hbegins h hinner ⟨rfl, ?_⟩ hothers
  simp only [Text.size_append, Nat.add_assoc]

theorem bare_node {head : Head} {children children' : List Node} {span span' : Span}
    (h : bareIn children' = spliceIn names children) :
    (head.node children' span').bare = (head.node children span).splice names := by
  unfold bareIn at h
  cases head with
  | rule => rw [Head.node, Head.node, Node.bare, Node.splice, Node.splice, h]
  | atRule => rw [Head.node, Head.node, Node.bare, Node.splice, Node.splice, h]

theorem bareIn_cons {node node' : Node} {nodes nodes' : List Node}
    (h : node'.bare = node.splice names) (hothers : bareIn nodes' = spliceIn names nodes) :
    bareIn (node' :: nodes') = spliceIn names (node :: nodes) := by
  unfold bareIn at hothers ⊢
  unfold Node.bare at h
  rw [spliceIn, spliceIn, h, hothers]

/-- A stylesheet is read with names in it if they are inserted where its declarations take them. -/
theorem Reading.weave {nodes : List Node} {rest' : List Char} (h : Reading place cur nodes last)
    (hin : cur.In source)
    (howned : Owned names cur.offset last.offset (declarationsIn parent nodes))
    (hrest : last.rest.head? = rest'.head? ∨ Settled nodes) (offset : Nat) :
    ∃ text nodes', Reads cur text last ∧
      Reading place ⟨offset, weaveNames names cur.offset text ++ rest'⟩ nodes'
        ⟨offset + size (weaveNames names cur.offset text), rest'⟩ ∧
      bareIn nodes' = spliceIn names nodes := by
  induction h generalizing parent offset rest' with
  | nil place cur => exact ⟨[], [], .refl _, .nil _ _, rfl⟩
  | separator h others ih =>
    obtain ⟨separator, hseparator, hfirst⟩ := Cursor.separator?_eq_ok_some_iff.mp h
    obtain ⟨howned, hweave⟩ := others.owned_of_reads hin hfirst howned
    obtain ⟨text, nodes', hreads, hreading, hbare⟩ :=
      ih (hin.reads hfirst) howned hrest (offset + size separator)
    refine ⟨separator ++ text, nodes', hfirst.trans hreads, ?_, hbare⟩
    rw [hweave, Text.size_append, ← Nat.add_assoc]
    exact .separator (Cursor.separator?_of_reads hseparator ⟨List.append_assoc .., rfl⟩) hreading
  | semicolon h others ih =>
    obtain ⟨howned, hweave⟩ := others.owned_of_reads hin h howned
    obtain ⟨text, nodes', hreads, hreading, hbare⟩ :=
      ih (hin.reads h) howned hrest (offset + size [';'])
    refine ⟨[';'] ++ text, nodes', h.trans hreads, ?_, hbare⟩
    rw [hweave, Text.size_append, ← Nat.add_assoc]
    exact .semicolon ⟨List.append_assoc .., rfl⟩ hreading
  | mark h others ih =>
    obtain ⟨mark, hfirst, hmark⟩ := skipMark?_recut h
    obtain ⟨howned, hweave⟩ := others.owned_of_reads hin hfirst howned
    obtain ⟨text, nodes', hreads, hreading, hbare⟩ :=
      ih (hin.reads hfirst) howned hrest (offset + size mark)
    refine ⟨mark ++ text, nodes', hfirst.trans hreads, ?_, hbare⟩
    rw [hweave, Text.size_append, ← Nat.add_assoc, List.append_assoc]
    exact .mark (hmark ..) hreading
  | @leaf place cur next last node nodes hbegins h others ih =>
    obtain ⟨front, hfront⟩ := h.reads
    obtain ⟨taken, hothers⟩ := others.reads
    have hin' := hin.reads hfront
    rw [declarationsIn_cons] at howned
    obtain ⟨hownedNode, hownedOthers⟩ := howned.split (h.declarations hin parent)
      (others.declarations hin' parent) hfront.offset_le hothers.offset_le
    have hrestOthers : last.rest.head? = rest'.head? ∨ nodes ≠ [] :=
      hrest.imp_right fun hsettled => h.others_ne_nil hsettled
    have hhead := others.head?_weave names hin' hothers hrestOthers next.offset
    obtain ⟨node', hleaf, hbegins', hbare⟩ := h.weave hin hbegins hownedNode hfront hhead offset
    obtain ⟨text, nodes', hreads, hreading, hbareOthers⟩ := ih hin' hownedOthers
      (hrest.imp_right Settled.of_cons) (offset + size (weaveNames names cur.offset front))
    obtain rfl := hreads.unique hothers
    refine ⟨front ++ text, node' :: nodes', hfront.trans hreads, ?_, bareIn_cons hbare hbareOthers⟩
    rw [hfront.weave_append, Text.size_append, ← Nat.add_assoc, List.append_assoc]
    exact .leaf hbegins' hleaf hreading
  | @block place cur brace inside close next last head children nodes hplace hbegins h inner hclose
      others ihInner ih =>
    obtain ⟨front, hfront, hrecut⟩ := h.recut
    obtain ⟨taken, hinner⟩ := inner.reads
    have hinInside := hin.reads hfront
    obtain ⟨hownedInner, hownedOthers, hweave⟩ :=
      inner.owned_of_block others hin hfront hinner hclose howned
    obtain ⟨text, nodes', hreads, hreading, hbareOthers⟩ :=
      ih (hinInside.reads (hinner.trans hclose)) hownedOthers (hrest.imp_right Settled.of_cons)
        (offset + size (front ++ ['{'] ++ weaveNames names inside.offset taken ++ ['}']))
    have hbrace : close.rest.head? =
        ('}' :: (weaveNames names next.offset text ++ rest')).head? := by
      rw [hclose.rest_eq]
      rfl
    obtain ⟨taken', children', hreadsInner, hreadingInner, hbareInner⟩ :=
      ihInner hinInside hownedInner (.inl hbrace) (offset + size (front ++ ['{']))
    obtain rfl := hreadsInner.unique hinner
    have hreading' := Reading.of_block hplace (hbegins.recut hfront _ _) (hrecut ..) hreadingInner
      hreading
    rw [← List.append_assoc _ (weaveNames names next.offset text), ← hweave, Nat.add_assoc,
      ← Text.size_append, ← hweave] at hreading'
    exact ⟨_, _, ((hfront.trans hinner).trans hclose).trans hreads, hreading',
      bareIn_cons (bare_node hbareInner) hbareOthers⟩

/-- A whole stylesheet with names woven in is read in front of another text, if it ends with a block
or nothing follows. -/
theorem reading_weaveNames {nodes : List Node} (h : ofText? source = .ok nodes)
    (howned : Owned names 0 (size source.toList) (declarationsIn none nodes)) {rest : List Char}
    (hrest : rest = [] ∨ Settled nodes) (offset : Nat) :
    ∃ nodes', Reading .top ⟨offset, weaveNames names 0 source.toList ++ rest⟩ nodes'
        ⟨offset + size (weaveNames names 0 source.toList), rest⟩ ∧
      bareIn nodes' = spliceIn names nodes := by
  obtain ⟨hreading, htaken⟩ := reading_of_ofText? h
  have hhead : ([] : List Char).head? = rest.head? ∨ Settled nodes :=
    hrest.imp_left fun hnil => by rw [hnil]
  obtain ⟨text, nodes', hreads, hweave, hbare⟩ :=
    hreading.weave ⟨[], .refl _⟩ howned hhead offset
  obtain rfl := hreads.unique htaken
  exact ⟨nodes', hweave, hbare⟩

end Weave

end Sheet

end WebFonts.Css
