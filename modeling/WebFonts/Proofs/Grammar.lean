import WebFonts.Css.Sheet
import WebFonts.Proofs.Extents
import WebFonts.Proofs.Values

/-!
# The grammar of stylesheets

`Sheet.Reading` is the grammar that the machine of `Sheet.ofText?` recognizes: nodes, and between
them separators, semicolons and, outside every block, the marks `<!--` and `-->`.
`ofText?_eq_ok_iff` says that the machine and the grammar agree, so that what holds of stylesheets
is shown by induction on how they are read. The grammar has no stack: a block is read with the
nodes inside it.
-/

namespace WebFonts.Css.Sheet

open Text (size lower trim)
open Cursor (Reads)

/-! ### The grammar -/

/-- Where nodes stand. -/
inductive Place where
  /-- Outside every block. -/
  | top
  /-- In a block that holds rules. -/
  | rules
  /-- In a block that holds declarations. -/
  | declarations
deriving DecidableEq

/-- Whether rules stand at a place rather than declarations. -/
def Place.holdsRules : Place → Bool
  | declarations => false
  | _ => true

/-- The place inside the block behind a head. -/
def Head.place (head : Head) : Place :=
  if head.holdsRules then .rules else .declarations

/-- The node of a head and its block. -/
def Head.node (head : Head) (children : List Node) (span : Span) : Node :=
  match head with
  | rule selector => .rule selector children span
  | atRule name prelude => .atRule name prelude (some children) span

/-- A node begins at a cursor, rather than one of the texts between nodes. -/
structure Begins (place : Place) (cur : Cursor) : Prop where
  atToken : AtToken cur.rest
  ne_nil : cur.rest ≠ []
  ne_brace : cur.rest.head? ≠ some '}'
  ne_semicolon : cur.rest.head? ≠ some ';'
  no_mark : place = .top → skipMark? cur = none

/-- A declaration begins with a character that is no closing brace and no semicolon. -/
theorem Begins.declarations {c : Char} {rest : List Char} (htoken : AtToken (c :: rest))
    (hbrace : c ≠ '}') (hsemicolon : c ≠ ';') (offset : Nat) :
    Begins .declarations ⟨offset, c :: rest⟩ := by
  refine ⟨htoken, List.cons_ne_nil c rest, ?_, ?_, ?_⟩
  · exact fun heq => hbrace (Option.some.inj heq)
  · exact fun heq => hsemicolon (Option.some.inj heq)
  · intro htop
    cases htop

/-- The name of an at-rule stands between two cursors. -/
def Named (cur : Cursor) (name : String) (next : Cursor) : Prop :=
  ∃ named word, cur.char? '@' = some named ∧ named.identifier? = some (word, next) ∧
    name = lower (String.ofList (unescape word))

/-- A head stands between a cursor and an opening brace, behind which the block begins. -/
inductive Opens (cur : Cursor) : Head → Cursor → Cursor → Prop
  | atRule {next brace inside : Cursor} {name : String} {prelude : List Char}
      (hname : Named cur name next) (hprelude : next.upTo stops 0 = .ok (prelude, brace))
      (hbrace : Reads brace ['{'] inside) :
      Opens cur (.atRule name (String.ofList (trim prelude))) brace inside
  | rule {brace inside : Cursor} {selector : List Char} (hat : cur.char? '@' = none)
      (hselector : cur.upTo stops 0 = .ok (selector, brace)) (hbrace : Reads brace ['{'] inside) :
      Opens cur (.rule (String.ofList (trim selector))) brace inside

/-- A node whose block, if any, is not read into nodes stands between two cursors. -/
inductive Leaf (cur : Cursor) : Place → Node → Cursor → Prop
  | atRule {place : Place} {next stop : Cursor} {name : String} {prelude : List Char}
      (hplace : place.holdsRules = true) (hname : Named cur name next)
      (hprelude : next.upTo stops 0 = .ok (prelude, stop)) (hbrace : stop.rest.head? ≠ some '{') :
      Leaf cur place
        (.atRule name (String.ofList (trim prelude)) none
          ⟨cur.offset, ((stop.char? ';').getD stop).offset⟩)
        ((stop.char? ';').getD stop)
  | block {brace last : Cursor} {statement block : List Char}
      (hstatement : cur.upTo stops 0 = .ok (statement, brace))
      (hbrace : brace.rest.head? = some '{') (hblock : brace.block = .ok (block, last)) :
      Leaf cur .declarations
        (.raw ⟨String.ofList (statement ++ block), ⟨cur.offset, last.offset⟩⟩) last
  | statement {stop : Cursor} {statement : List Char}
      (hstatement : cur.upTo stops 0 = .ok (statement, stop))
      (hbrace : stop.rest.head? ≠ some '{') (hat : statement.head? = some '@') :
      Leaf cur .declarations (.raw ⟨String.ofList statement, ⟨cur.offset, stop.offset⟩⟩) stop
  | declaration {stop : Cursor} {statement : List Char} {declaration : Declaration}
      (hstatement : cur.upTo stops 0 = .ok (statement, stop))
      (hbrace : stop.rest.head? ≠ some '{') (hat : statement.head? ≠ some '@')
      (h : Declaration.ofStatement? ⟨cur.offset, statement⟩ = .ok declaration) :
      Leaf cur .declarations (.declaration declaration) stop

/-- Some nodes stand between two cursors. -/
inductive Reading : Place → Cursor → List Node → Cursor → Prop
  | nil (place : Place) (cur : Cursor) : Reading place cur [] cur
  | separator {place : Place} {cur next last : Cursor} {nodes : List Node}
      (h : cur.separator? = .ok (some next)) (others : Reading place next nodes last) :
      Reading place cur nodes last
  | semicolon {place : Place} {cur next last : Cursor} {nodes : List Node}
      (h : Reads cur [';'] next) (others : Reading place next nodes last) :
      Reading place cur nodes last
  | mark {cur next last : Cursor} {nodes : List Node} (h : skipMark? cur = some next)
      (others : Reading .top next nodes last) : Reading .top cur nodes last
  | leaf {place : Place} {cur next last : Cursor} {node : Node} {nodes : List Node}
      (hbegins : Begins place cur) (h : Leaf cur place node next)
      (others : Reading place next nodes last) : Reading place cur (node :: nodes) last
  | block {place : Place} {cur brace inside close next last : Cursor} {head : Head}
      {children nodes : List Node} (hplace : place.holdsRules = true)
      (hbegins : Begins place cur) (h : Opens cur head brace inside)
      (inner : Reading head.place inside children close) (hclose : Reads close ['}'] next)
      (others : Reading place next nodes last) :
      Reading place cur (head.node children ⟨cur.offset, next.offset⟩ :: nodes) last

/-! ### What is passed over -/

section Reads

variable {place : Place} {cur next last : Cursor} {nodes : List Node}

theorem Named.reads {name : String} (h : Named cur name next) :
    ∃ word, Reads cur ('@' :: word) next ∧ name = lower (String.ofList (unescape word)) := by
  obtain ⟨named, word, hat, hword, hname⟩ := h
  exact ⟨word, (Cursor.reads_char? hat).trans (Cursor.reads_identifier? hword).1, hname⟩

theorem Opens.reads {head : Head} {brace inside : Cursor} (h : Opens cur head brace inside) :
    ∃ text, Reads cur text brace ∧ Reads brace ['{'] inside := by
  cases h with
  | atRule hname hprelude hbrace =>
    obtain ⟨word, hword, -⟩ := hname.reads
    exact ⟨_, hword.trans (Cursor.reads_upTo hprelude), hbrace⟩
  | rule hat hselector hbrace => exact ⟨_, Cursor.reads_upTo hselector, hbrace⟩

theorem reads_semicolon (cur : Cursor) :
    ∃ taken, Reads cur taken ((cur.char? ';').getD cur) := by
  cases hchar : cur.char? ';' with
  | none => exact ⟨[], .refl _⟩
  | some last => exact ⟨[';'], Cursor.reads_char? hchar⟩

theorem Leaf.reads {node : Node} (h : Leaf cur place node next) :
    ∃ taken, Reads cur taken next := by
  cases h with
  | atRule hplace hname hprelude hbrace =>
    obtain ⟨word, hword, -⟩ := hname.reads
    obtain ⟨semicolon, hsemicolon⟩ := reads_semicolon _
    exact ⟨_, (hword.trans (Cursor.reads_upTo hprelude)).trans hsemicolon⟩
  | block hstatement hbrace hblock =>
    exact ⟨_, (Cursor.reads_upTo hstatement).trans (Cursor.reads_block hblock).1⟩
  | statement hstatement => exact ⟨_, Cursor.reads_upTo hstatement⟩
  | declaration hstatement => exact ⟨_, Cursor.reads_upTo hstatement⟩

theorem reads_skipMark? (h : skipMark? cur = some next) : ∃ mark, Reads cur mark next := by
  unfold skipMark? at h
  split at h <;> cases h
  · exact ⟨_, Cursor.reads_pass ‹_›⟩
  · exact ⟨_, Cursor.reads_pass ‹_›⟩

theorem Reading.reads (h : Reading place cur nodes last) : ∃ taken, Reads cur taken last := by
  induction h with
  | nil => exact ⟨[], .refl _⟩
  | separator h others ih =>
    obtain ⟨separator, hfirst, -⟩ := Cursor.reads_separator? h
    obtain ⟨taken, hothers⟩ := ih
    exact ⟨_, hfirst.trans hothers⟩
  | semicolon h others ih =>
    obtain ⟨taken, hothers⟩ := ih
    exact ⟨_, h.trans hothers⟩
  | mark h others ih =>
    obtain ⟨mark, hfirst⟩ := reads_skipMark? h
    obtain ⟨taken, hothers⟩ := ih
    exact ⟨_, hfirst.trans hothers⟩
  | leaf hbegins h others ih =>
    obtain ⟨text, hfirst⟩ := h.reads
    obtain ⟨taken, hothers⟩ := ih
    exact ⟨_, hfirst.trans hothers⟩
  | block hplace hbegins h inner hclose others ihInner ih =>
    obtain ⟨text, hhead, hopening⟩ := h.reads
    obtain ⟨children, hinner⟩ := ihInner
    obtain ⟨taken, hothers⟩ := ih
    exact ⟨_, (((hhead.trans hopening).trans hinner).trans hclose).trans hothers⟩

theorem Reading.append {middle : Cursor} {others : List Node}
    (h : Reading place cur nodes middle) (hothers : Reading place middle others last) :
    Reading place cur (nodes ++ others) last := by
  induction h with
  | nil => exact hothers
  | separator h _ ih => exact .separator h (ih hothers)
  | semicolon h _ ih => exact .semicolon h (ih hothers)
  | mark h _ ih => exact .mark h (ih hothers)
  | leaf hbegins h _ ih => exact .leaf hbegins h (ih hothers)
  | block hplace hbegins h inner hclose _ _ ih =>
    exact .block hplace hbegins h inner hclose (ih hothers)

end Reads

/-! ### Steps of the machine -/

variable {state state' : State} {cur next last : Cursor} {nodes : List Node}

/-- The place at which a machine reads. -/
def State.place (state : State) : Place :=
  match state.blocks with
  | [] => .top
  | inner :: _ => inner.head.place

theorem State.inRules_eq (state : State) : state.inRules = state.place.holdsRules := by
  obtain ⟨blocks, read⟩ := state
  cases blocks with
  | nil => rfl
  | cons inner outer =>
    simp only [inRules, place, Head.place]
    split <;> simp_all [Place.holdsRules]

theorem State.place_eq_top_iff : State.place state = .top ↔ state.blocks = [] := by
  obtain ⟨blocks, read⟩ := state
  cases blocks with
  | nil => simp [place]
  | cons inner outer =>
    simp only [place, Head.place, reduceCtorEq, iff_false]
    split <;> nofun

theorem OpenBlock.close_eq (block : OpenBlock) (children : List Node) (stop : Nat) :
    block.close children stop = block.head.node children ⟨block.start, stop⟩ := by
  obtain ⟨head, start, brace, before⟩ := block
  cases head <;> rfl

theorem plain_stops : Plain stops := by
  intro c hmem
  simp only [stops, List.mem_cons, List.not_mem_nil, or_false] at hmem
  rcases hmem with rfl | rfl | rfl <;> decide

theorem char?_eq_some_iff {c : Char} : cur.char? c = some next ↔ Reads cur [c] next := by
  constructor
  · exact Cursor.reads_char?
  · rintro ⟨hrest, hoffset⟩
    obtain ⟨offset, rest⟩ := next
    dsimp only at hrest hoffset
    subst hoffset
    exact Cursor.char?_of_cons hrest

/-- What reading an at-rule leads to. -/
theorem readAtRule_eq_ok {named : Cursor} (hat : cur.char? '@' = some named)
    (h : readAtRule state cur named = .ok (state', next)) :
    (∃ head brace, Opens cur head brace next ∧
        state' = state.enter head cur.offset brace.offset) ∨
      ∃ node, (∀ place : Place, place.holdsRules = true → Leaf cur place node next) ∧
        state' = state.add node := by
  unfold readAtRule Cursor.fail at h
  split at h
  · cases h
  · rename_i word after hword
    simp only [bind, Except.bind, pure, Except.pure] at h
    split at h
    · cases h
    · rename_i found hprelude
      obtain ⟨prelude, stop⟩ := found
      have hname : Named cur (lower (String.ofList (unescape word))) after :=
        ⟨named, word, hat, hword, rfl⟩
      dsimp only at h
      split at h
      · rename_i hbrace
        cases h
        exact .inl ⟨_, stop, .atRule hname hprelude (Cursor.reads_char? hbrace), rfl⟩
      · rename_i hbrace
        cases h
        exact .inr ⟨_, fun place hplace =>
          .atRule hplace hname hprelude (Cursor.char?_eq_none_iff.mp hbrace), rfl⟩

/-- What reading a rule leads to. -/
theorem readRule_eq_ok (h : readRule state cur = .ok (state', next)) :
    (state.place = .top ∧ skipMark? cur = some next ∧ state' = state) ∨
      (state.place = .top → skipMark? cur = none) ∧
        ((∃ head brace, Opens cur head brace next ∧
            state' = state.enter head cur.offset brace.offset) ∨
          ∃ node, (∀ place : Place, place.holdsRules = true → Leaf cur place node next) ∧
            state' = state.add node) := by
  unfold readRule at h
  split at h
  · rename_i hmark
    cases h
    split at hmark
    · rename_i hempty
      exact .inl ⟨State.place_eq_top_iff.mpr (List.isEmpty_iff.mp hempty), hmark, rfl⟩
    · cases hmark
  · rename_i hmark
    have hnoMark : state.place = .top → skipMark? cur = none := by
      intro htop
      rw [State.place_eq_top_iff] at htop
      rwa [htop] at hmark
    refine .inr ⟨hnoMark, ?_⟩
    split at h
    · rename_i named hat
      exact readAtRule_eq_ok hat h
    · rename_i hat
      unfold readSelector Cursor.fail at h
      simp only [bind, Except.bind, pure, Except.pure] at h
      split at h
      · cases h
      · rename_i found hselector
        obtain ⟨selector, stop⟩ := found
        dsimp only at h
        split at h
        · rename_i hbrace
          cases h
          exact .inl ⟨_, stop, .rule hat hselector (Cursor.reads_char? hbrace), rfl⟩
        · cases h

/-- What reading a statement leads to. -/
theorem readStatement_eq_ok (h : readStatement state cur = .ok (state', next)) :
    ∃ node, Leaf cur .declarations node next ∧ state' = state.add node := by
  unfold readStatement at h
  simp only [bind, Except.bind, pure, Except.pure] at h
  split at h
  · cases h
  · rename_i found hstatement
    obtain ⟨statement, stop⟩ := found
    dsimp only at h
    split at h
    · rename_i rest hbrace
      split at h
      · cases h
      · rename_i found hblock
        obtain ⟨block, after⟩ := found
        cases h
        exact ⟨_, .block hstatement (by rw [hbrace]; rfl) hblock, rfl⟩
    · rename_i hbrace
      have hbrace' : stop.rest.head? ≠ some '{' := by
        intro hhead
        cases hrest : stop.rest with
        | nil => simp [hrest] at hhead
        | cons c rest =>
          rw [hrest] at hhead
          cases hhead
          exact hbrace _ hrest
      split at h
      · cases h
        exact ⟨_, .statement hstatement hbrace' rfl, rfl⟩
      · rename_i hat
        split at h
        · cases h
        · rename_i declaration hdeclaration
          cases h
          refine ⟨_, .declaration hstatement hbrace' ?_ hdeclaration, rfl⟩
          intro hhead
          cases statement with
          | nil => cases hhead
          | cons c rest =>
            cases hhead
            exact hat _ rfl

/-- What a run that ends in `result` does behind the trivia at the cursor. -/
inductive Continues (state : State) (cur : Cursor) (result : List Node) : Prop
  | finish (hend : cur.rest = []) (hblocks : state.blocks = [])
      (hresult : result = state.read.reverse)
  | close {inner : OpenBlock} {outer : List OpenBlock} {next : Cursor}
      (hblocks : state.blocks = inner :: outer) (hclose : Reads cur ['}'] next)
      (h : reader.run ⟨outer, inner.head.node state.read.reverse ⟨inner.start, next.offset⟩ ::
        inner.before⟩ next = .ok result)
  | semicolon {next : Cursor} (h : Reads cur [';'] next) (hrun : reader.run state next = .ok result)
  | mark {next : Cursor} (hplace : state.place = .top) (h : skipMark? cur = some next)
      (hrun : reader.run state next = .ok result)
  | enter {head : Head} {brace next : Cursor} (hplace : state.place.holdsRules = true)
      (hbegins : Begins state.place cur) (h : Opens cur head brace next)
      (hlt : next.rest.length < cur.rest.length)
      (hrun : reader.run (state.enter head cur.offset brace.offset) next = .ok result)
  | add {node : Node} {next : Cursor} (hbegins : Begins state.place cur)
      (h : Leaf cur state.place node next) (hlt : next.rest.length < cur.rest.length)
      (hrun : reader.run (state.add node) next = .ok result)

/-- What a run does behind one step. -/
def LeadsTo (result : List Node) : Progress State (List Node) → Prop
  | .done nodes => nodes = result
  | .onward state next => reader.run state next = .ok result

theorem continues_of_advance {progress : Progress State (List Node)} {result : List Node}
    (htoken : AtToken cur.rest) (h : advance state cur = .ok progress)
    (hrun : LeadsTo result progress) : Continues state cur result := by
  have hlt : ∀ state' next, progress = .onward state' next →
      next.rest.length < cur.rest.length := by
    rintro state' next rfl
    exact advance_shortens h
  unfold advance Cursor.fail at h
  split at h
  · rename_i hend
    split at h
    · rename_i hblocks
      cases h
      exact .finish hend hblocks hrun.symm
    · cases h
  · rename_i rest hrest
    split at h
    · cases h
    · rename_i hblocks
      cases h
      rw [LeadsTo, OpenBlock.close_eq] at hrun
      exact .close hblocks (Cursor.reads_pass hrest) hrun
  · rename_i rest hrest
    cases h
    exact .semicolon (Cursor.reads_pass hrest) hrun
  · rename_i hne hbrace hsemicolon
    split at h
    · cases h
    · rename_i state' next hread
      cases h
      have hshort : next.rest.length < cur.rest.length := hlt _ _ rfl
      have hbegins (hmark : state.place = .top → skipMark? cur = none) :
          Begins state.place cur := by
        refine ⟨htoken, hne, ?_, ?_, hmark⟩
        · intro hhead
          cases hrest : cur.rest <;> simp_all
        · intro hhead
          cases hrest : cur.rest <;> simp_all
      rw [State.inRules_eq] at hread
      split at hread
      · rename_i hplace
        rcases readRule_eq_ok hread with ⟨htop, hmark, rfl⟩ |
          ⟨hmark, ⟨head, brace, hopens, rfl⟩ | ⟨node, hleaf, rfl⟩⟩
        · exact .mark htop hmark hrun
        · exact .enter hplace (hbegins hmark) hopens hshort hrun
        · exact .add (hbegins hmark) (hleaf _ hplace) hshort hrun
      · rename_i hplace
        have hdeclarations : state.place = .declarations := by
          cases hstate : state.place <;> simp_all [Place.holdsRules]
        obtain ⟨node, hleaf, rfl⟩ := readStatement_eq_ok hread
        refine .add (hbegins ?_) (hdeclarations ▸ hleaf) hshort hrun
        rw [hdeclarations]
        nofun

/-- A run that succeeds passes over trivia and then continues. -/
theorem continues_of_run {result : List Node} (h : reader.run state cur = .ok result) :
    ∃ begun, cur.skipTrivia = .ok begun ∧ Continues state begun result := by
  rw [Pushdown.run.eq_def] at h
  split at h
  · cases h
  · rename_i nodes hstep
    simp only [reader, step] at hstep
    split at hstep
    · cases hstep
    · rename_i begun hskip
      refine ⟨begun, hskip, continues_of_advance (Cursor.atToken_of_skipTrivia hskip) hstep ?_⟩
      cases h
      rfl
  · rename_i state' next hstep
    simp only [reader, step] at hstep
    split at hstep
    · cases hstep
    · rename_i begun hskip
      exact ⟨begun, hskip, continues_of_advance (Cursor.atToken_of_skipTrivia hskip) hstep h⟩

theorem Reading.of_skipTrivia {place : Place} (h : cur.skipTrivia = .ok next)
    (others : Reading place next nodes last) : Reading place cur nodes last := by
  fun_induction Cursor.skipTrivia cur with
  | case1 => cases h
  | case2 => cases h; exact others
  | case3 cur between hsep ih => exact .separator hsep (ih h)

/-- What the machine goes on to read from a state: some nodes, and then the end of the text or the
brace that closes the innermost block. -/
theorem reading_of_run {blocks : List OpenBlock} {read result : List Node}
    (h : reader.run ⟨blocks, read⟩ cur = .ok result) :
    ∃ nodes last, Reading (State.place ⟨blocks, read⟩) cur nodes last ∧
      match blocks with
      | [] => last.rest = [] ∧ result = read.reverse ++ nodes
      | inner :: outer =>
        ∃ next, Reads last ['}'] next ∧ next.rest.length < cur.rest.length ∧
          reader.run ⟨outer, inner.head.node (read.reverse ++ nodes)
            ⟨inner.start, next.offset⟩ :: inner.before⟩ next = .ok result := by
  induction hlength : cur.rest.length using Nat.strong_induction_on
    generalizing cur blocks read with
  | _ length ih =>
    subst hlength
    obtain ⟨begun, hskip, hcontinues⟩ := continues_of_run h
    have hle := Cursor.length_le_of_skipTrivia hskip
    cases hcontinues with
    | finish hend hblocks hresult =>
      subst hblocks
      exact ⟨[], begun, .of_skipTrivia hskip (.nil _ _), hend, by simpa using hresult⟩
    | @close inner outer next hblocks hclose hrun =>
      subst hblocks
      have hlt := hclose.length_lt (by simp)
      exact ⟨[], begun, .of_skipTrivia hskip (.nil _ _), next, hclose, by omega,
        by simpa using hrun⟩
    | semicolon hsemicolon hrun =>
      have hlt := hsemicolon.length_lt (by simp)
      obtain ⟨nodes, last, hreading, hresult⟩ := ih _ (by omega) hrun rfl
      refine ⟨nodes, last, .of_skipTrivia hskip (.semicolon hsemicolon hreading), ?_⟩
      cases blocks with
      | nil => exact hresult
      | cons inner outer =>
        obtain ⟨after, hclosing, hshort, hafter⟩ := hresult
        exact ⟨after, hclosing, by omega, hafter⟩
    | mark hplace hmark hrun =>
      obtain rfl : blocks = [] := State.place_eq_top_iff.mp hplace
      have hlt := length_lt_of_skipMark? hmark
      obtain ⟨nodes, last, hreading, hresult⟩ := ih _ (by omega) hrun rfl
      exact ⟨nodes, last, .of_skipTrivia hskip (.mark hmark hreading), hresult⟩
    | enter hplace hbegins hopens hlt hrun =>
      obtain ⟨children, close, hinner, after, hclose, hshort, hafter⟩ := ih _ (by omega) hrun rfl
      obtain ⟨nodes, last, hreading, hresult⟩ := ih _ (by omega) hafter rfl
      refine ⟨_, last, .of_skipTrivia hskip (.block hplace hbegins hopens hinner hclose hreading),
        ?_⟩
      cases blocks with
      | nil => simpa using hresult
      | cons inner outer =>
        obtain ⟨after', hclosing, hshort', hafter'⟩ := hresult
        exact ⟨after', hclosing, by omega, by simpa using hafter'⟩
    | add hbegins hleaf hlt hrun =>
      obtain ⟨nodes, last, hreading, hresult⟩ := ih _ (by omega) hrun rfl
      refine ⟨_, last, .of_skipTrivia hskip (.leaf hbegins hleaf hreading), ?_⟩
      cases blocks with
      | nil => simpa using hresult
      | cons inner outer =>
        obtain ⟨after, hclosing, hshort, hafter⟩ := hresult
        exact ⟨after, hclosing, by omega, by simpa using hafter⟩

/-! ### The machine follows the grammar -/

theorem run_of_separator? (h : cur.separator? = .ok (some next)) (state : State) :
    reader.run state cur = reader.run state next := by
  apply Pushdown.run_congr
  simp only [reader, step, Cursor.skipTrivia_of_separator? h]

theorem run_of_advance (htoken : AtToken cur.rest)
    (h : advance state cur = .ok (.onward state' next)) :
    reader.run state cur = reader.run state' next := by
  apply Pushdown.run_of_onward
  simp only [reader, step, Cursor.skipTrivia_of_atToken htoken, h]

theorem advance_of_begins (state : State) {place : Place} (hbegins : Begins place cur) :
    advance state cur =
      match if state.place.holdsRules then readRule state cur else readStatement state cur with
      | .error fault => .error fault
      | .ok (state', next) => .ok (.onward state' next) := by
  have hnil := hbegins.ne_nil
  have hbrace := hbegins.ne_brace
  have hsemicolon := hbegins.ne_semicolon
  unfold advance
  rw [← State.inRules_eq]
  split
  · simp_all
  · simp_all
  · simp_all
  · rfl

theorem readAtRule_of_named {name : String} {stop : Cursor} {prelude : List Char}
    (hname : Named cur name next) (hprelude : next.upTo stops 0 = .ok (prelude, stop)) :
    ∃ named, cur.char? '@' = some named ∧
      readAtRule state cur named =
        match stop.char? '{' with
        | some inside =>
          .ok (state.enter (.atRule name (String.ofList (trim prelude))) cur.offset stop.offset,
            inside)
        | none =>
          let last := (stop.char? ';').getD stop
          .ok (state.add (.atRule name (String.ofList (trim prelude)) none
            ⟨cur.offset, last.offset⟩), last) := by
  obtain ⟨named, word, hat, hword, rfl⟩ := hname
  refine ⟨named, hat, ?_⟩
  unfold readAtRule
  rw [hword]
  cases hbrace : stop.char? '{' <;> simp [hprelude, hbrace, bind, Except.bind, pure, Except.pure]

theorem readRule_of_no_mark (hmark : state.place = .top → skipMark? cur = none) :
    readRule state cur =
      match cur.char? '@' with
      | some named => readAtRule state cur named
      | none => readSelector state cur := by
  unfold readRule
  split
  · rename_i hsome
    split at hsome
    · rename_i hempty
      rw [hmark (State.place_eq_top_iff.mpr (List.isEmpty_iff.mp hempty))] at hsome
      cases hsome
    · cases hsome
  · rfl

theorem readRule_of_opens {head : Head} {brace : Cursor} (h : Opens cur head brace next)
    (hmark : state.place = .top → skipMark? cur = none) :
    readRule state cur = .ok (state.enter head cur.offset brace.offset, next) := by
  rw [readRule_of_no_mark hmark]
  cases h with
  | atRule hname hprelude hbrace =>
    obtain ⟨named, hat, hread⟩ := readAtRule_of_named hname hprelude
    rw [hat]
    dsimp only
    rw [hread, char?_eq_some_iff.mpr hbrace]
  | rule hat hselector hbrace =>
    rw [hat]
    simp only [readSelector, hselector, bind, Except.bind, char?_eq_some_iff.mpr hbrace, pure,
      Except.pure]

/-- A statement without a block that does not begin with `@` is read as a declaration. -/
theorem readStatement_of_upTo {statement : List Char} {stop : Cursor}
    (hstatement : cur.upTo stops 0 = .ok (statement, stop)) (hbrace : stop.rest.head? ≠ some '{')
    (hat : statement.head? ≠ some '@') :
    readStatement state cur =
      (Declaration.ofStatement? ⟨cur.offset, statement⟩).map fun declaration =>
        (state.add (.declaration declaration), stop) := by
  unfold readStatement
  simp only [hstatement, bind, Except.bind, pure, Except.pure]
  split
  · simp_all
  · split
    · simp_all
    · cases Declaration.ofStatement? ⟨cur.offset, statement⟩ <;> rfl

theorem read_of_leaf {place : Place} {node : Node} (h : Leaf cur place node next)
    (hstate : state.place = place) (hmark : state.place = .top → skipMark? cur = none) :
    (if state.place.holdsRules then readRule state cur else readStatement state cur) =
      .ok (state.add node, next) := by
  cases h with
  | atRule hplace hname hprelude hbrace =>
    obtain ⟨named, hat, hread⟩ := readAtRule_of_named hname hprelude
    rw [hstate, if_pos hplace, readRule_of_no_mark hmark, hat]
    dsimp only
    rw [hread, Cursor.char?_eq_none_iff.mpr hbrace]
  | block hstatement hbrace hblock =>
    rename_i brace statement block
    obtain ⟨rest, hrest⟩ : ∃ rest, brace.rest = '{' :: rest := by
      cases hbraceRest : brace.rest <;> simp_all
    rw [hstate, if_neg (by decide), readStatement]
    simp only [hstatement, bind, Except.bind, hrest, hblock, pure, Except.pure]
  | statement hstatement hbrace hat =>
    rename_i statement
    obtain ⟨rest, rfl⟩ : ∃ rest, statement = '@' :: rest := by
      cases statement <;> simp_all
    rw [hstate, if_neg (by decide), readStatement]
    simp only [hstatement, bind, Except.bind, pure, Except.pure]
    split
    · simp_all
    · rfl
  | declaration hstatement hbrace hat h =>
    rw [hstate, if_neg (by decide), readStatement_of_upTo hstatement hbrace hat, h]
    rfl

theorem atToken_of_reads {c : Char} (h : Reads cur [c] next) (hblank : c.isWhitespace = false)
    (hslash : c ≠ '/') : AtToken cur.rest := by
  rw [h.rest_eq]
  exact ⟨hblank, (absurd · hslash)⟩

theorem eq_pass_of_reads {taken : List Char} (h : Reads cur taken next) :
    next = cur.pass taken next.rest := by
  obtain ⟨offset, rest⟩ := next
  rw [Cursor.pass, ← h.offset_eq]

theorem advance_of_semicolon (h : Reads cur [';'] next) :
    advance state cur = .ok (.onward state next) := by
  have hrest : cur.rest = ';' :: next.rest := h.rest_eq
  unfold advance
  rw [hrest, eq_pass_of_reads h]
  rfl

theorem advance_of_close {inner : OpenBlock} {outer : List OpenBlock} {read : List Node}
    (h : Reads cur ['}'] next) :
    advance ⟨inner :: outer, read⟩ cur =
      .ok (.onward ⟨outer, inner.head.node read.reverse ⟨inner.start, next.offset⟩ :: inner.before⟩
        next) := by
  have hrest : cur.rest = '}' :: next.rest := h.rest_eq
  unfold advance
  rw [hrest, eq_pass_of_reads h, ← OpenBlock.close_eq]
  rfl

theorem advance_of_mark (hstate : state.place = .top) (h : skipMark? cur = some next) :
    AtToken cur.rest ∧ advance state cur = .ok (.onward state next) := by
  have hblocks := State.place_eq_top_iff.mp hstate
  have hinRules : state.inRules = true := by rw [State.inRules_eq, hstate]; rfl
  have hread : readRule state cur = .ok (state, next) := by
    unfold readRule
    rw [hblocks]
    simp only [List.isEmpty_nil, if_true]
    rw [h]
  unfold skipMark? at h
  split at h
  · rename_i rest hrest
    refine ⟨by rw [hrest]; exact atToken_of_ne (by decide) (by decide), ?_⟩
    unfold advance
    rw [hrest]
    simp [hinRules, hread]
  · rename_i rest hrest
    refine ⟨by rw [hrest]; exact atToken_of_ne (by decide) (by decide), ?_⟩
    unfold advance
    rw [hrest]
    simp [hinRules, hread]
  · cases h

/-- The machine reads what the grammar allows, and is then in the state behind it. -/
theorem Reading.run {place : Place} (h : Reading place cur nodes last) (blocks : List OpenBlock)
    (read : List Node) (hplace : State.place ⟨blocks, read⟩ = place) :
    reader.run ⟨blocks, read⟩ cur = reader.run ⟨blocks, nodes.reverse ++ read⟩ last := by
  induction h generalizing blocks read with
  | nil => rfl
  | separator h others ih => rw [run_of_separator? h, ih blocks read hplace]
  | @semicolon place cur next last nodes h others ih =>
    rw [run_of_advance (atToken_of_reads h (by decide) (by decide)) (advance_of_semicolon h),
      ih blocks read hplace]
  | mark h others ih =>
    obtain ⟨htoken, hadvance⟩ := advance_of_mark hplace h
    rw [run_of_advance htoken hadvance, ih blocks read hplace]
  | leaf hbegins h others ih =>
    have hadvance := advance_of_begins ⟨blocks, read⟩ hbegins
    rw [read_of_leaf h hplace (hplace ▸ hbegins.no_mark)] at hadvance
    rw [run_of_advance hbegins.atToken hadvance, State.add, ih blocks _ (by exact hplace)]
    simp
  | @block place cur brace inside close next last head children nodes hrules hbegins h inner hclose
      others ihInner ihOthers =>
    have hmark : State.place ⟨blocks, read⟩ = .top → skipMark? cur = none :=
      hplace ▸ hbegins.no_mark
    have hadvance := advance_of_begins ⟨blocks, read⟩ hbegins
    rw [hplace, if_pos hrules, readRule_of_opens h hmark] at hadvance
    rw [run_of_advance hbegins.atToken hadvance, State.enter, ihInner _ _ rfl,
      run_of_advance (atToken_of_reads hclose (by decide) (by decide)) (advance_of_close hclose),
      ihOthers blocks _ (by exact hplace)]
    simp

/-- The machine and the grammar agree on whole stylesheets. -/
theorem ofText?_eq_ok_iff {text : String} :
    ofText? text = .ok nodes ↔
      ∃ last, Reading .top (.start text.toList) nodes last ∧ last.rest = [] := by
  constructor
  · intro h
    obtain ⟨nodes', last, hreading, hend, rfl⟩ := reading_of_run h
    exact ⟨last, hreading, hend⟩
  · rintro ⟨last, hreading, hend⟩
    unfold ofText? State.initial
    rw [hreading.run [] [] rfl]
    apply Pushdown.run_of_done
    have hskip := Cursor.skipTrivia_of_atToken (by rw [hend]; trivial)
    simp only [reader, step, hskip, advance, hend, List.append_nil, List.reverse_reverse]

/-- A stylesheet that is read is read to its end. -/
theorem reading_of_ofText? {text : String} (h : ofText? text = .ok nodes) :
    Reading .top (.start text.toList) nodes ⟨size text.toList, []⟩ ∧
      Reads (.start text.toList) text.toList ⟨size text.toList, []⟩ := by
  obtain ⟨⟨offset, rest⟩, hreading, rfl⟩ := ofText?_eq_ok_iff.mp h
  obtain ⟨taken, hreads⟩ := hreading.reads
  obtain rfl : text.toList = taken := hreads.rest_eq.trans (List.append_nil taken)
  obtain rfl : offset = size text.toList := hreads.offset_eq.trans (Nat.zero_add _)
  exact ⟨hreading, hreads⟩

/-! ### A rule with one statement -/

/-- A rule that holds one statement. -/
def ruleOf (statement : List Char) : String :=
  String.ofList ('a' :: '\x7b' :: (statement ++ ['\x7d']))

/-- The machine opens the block of a rule. -/
theorem run_ruleOf (statement : List Char) :
    ofText? (ruleOf statement) =
      reader.run (State.initial.enter (.rule "a") 0 1) ⟨2, statement ++ ['\x7d']⟩ := by
  let cur : Cursor := .start ('a' :: '\x7b' :: (statement ++ ['\x7d']))
  have hlexes : Lexes [.plain 'a'] ('\x7b' :: (statement ++ ['\x7d'])) :=
    ⟨.plain (by decide) rfl nofun, trivial⟩
  have hpasses : Passes stops 0 [.plain 'a'] := ⟨by decide, trivial⟩
  have hselector : cur.upTo stops 0 = .ok (['a'], ⟨1, '\x7b' :: (statement ++ ['\x7d'])⟩) :=
    Cursor.upTo_of_passes plain_stops ⟨rfl, rfl⟩ hlexes hpasses
      (.inr ⟨rfl, '\x7b', by decide, rfl⟩)
  have hopens : Opens cur (.rule "a") ⟨1, '\x7b' :: (statement ++ ['\x7d'])⟩
      ⟨2, statement ++ ['\x7d']⟩ :=
    .rule rfl hselector ⟨rfl, rfl⟩
  have hbegins : Begins .top cur :=
    ⟨atToken_of_ne (by decide) (by decide), nofun, nofun, nofun, fun _ => rfl⟩
  have hadvance := advance_of_begins .initial hbegins
  rw [readRule_of_opens hopens fun _ => rfl] at hadvance
  rw [ofText?, ruleOf, String.toList_ofList]
  exact run_of_advance hbegins.atToken hadvance

/-- A rule with one statement is read as one declaration, or refused for its statement. -/
theorem ofText?_ruleOf {statement : List Char} {stop : Nat}
    (hbegins : Begins .declarations ⟨2, statement ++ ['\x7d']⟩)
    (hat : statement.head? ≠ some '@')
    (hends : (Cursor.mk 2 (statement ++ ['\x7d'])).upTo stops 0 =
      .ok (statement, ⟨stop, ['\x7d']⟩)) :
    ofText? (ruleOf statement) =
      (Declaration.ofStatement? ⟨2, statement⟩).map fun declaration =>
        [.rule "a" [.declaration declaration] ⟨0, stop + 1⟩] := by
  rw [run_ruleOf]
  cases hread : Declaration.ofStatement? ⟨2, statement⟩ with
  | ok declaration =>
    have hleaf := Leaf.declaration hends nofun hat hread
    have hreading : Reading .declarations ⟨2, statement ++ ['\x7d']⟩ [.declaration declaration]
        ⟨stop, ['\x7d']⟩ :=
      .leaf hbegins hleaf (.nil _ _)
    have hclose : Reads ⟨stop, ['\x7d']⟩ ['\x7d'] ⟨stop + 1, []⟩ := ⟨rfl, rfl⟩
    rw [State.enter, hreading.run _ _ rfl,
      run_of_advance (atToken_of_reads hclose (by decide) (by decide)) (advance_of_close hclose)]
    have hskip : (Cursor.mk (stop + 1) []).skipTrivia = .ok ⟨stop + 1, []⟩ :=
      Cursor.skipTrivia_of_atToken trivial
    apply Pushdown.run_of_done
    simp only [reader, step, hskip]
    rfl
  | error fault =>
    have hadvance := advance_of_begins (State.initial.enter (.rule "a") 0 1) hbegins
    have hplace : (State.initial.enter (.rule "a") 0 1).place.holdsRules = false := rfl
    rw [hplace, if_neg (by decide), readStatement_of_upTo hends nofun hat, hread] at hadvance
    apply Pushdown.run_of_error
    simp only [reader, step, Cursor.skipTrivia_of_atToken hbegins.atToken, hadvance]
    rfl

end WebFonts.Css.Sheet
