import WebFonts.Proofs.Grammar
import WebFonts.Proofs.ReturnedDeclarations

/-!
# Stylesheets with carriage returns

A stylesheet is searched with the same result if a carriage return is put in front of each of its
line feeds, but for the offsets (`families_with_returns`), unless a backslash stands in front of a
line feed: it protects the carriage return then and leaves the line feed alone
(`no_families_behind_escaped_break`).

The tree of the changed text has the shape of the tree of the text, and its declarations follow
those of the other one by one (`Sheet.Reading.returned`, `Node.Follows`). Preludes, spans and nested
rules may differ; no search reads them.
-/

namespace WebFonts.Css

open Text (withReturns withReturns_cons PlainBreaks returnedOffset)
open Cursor (Reads)

variable {move : Nat → Nat}

/-! ### Trees of the same shape -/

/-- Two nodes of the same shape. The declarations in the second one follow those in the first. -/
inductive Node.Follows (move : Nat → Nat) : Node → Node → Prop
  | rule {children children' : List Node} (selector selector' : String) (span span' : Span)
      (h : List.Forall₂ (Follows move) children children') :
      Follows move (.rule selector children span) (.rule selector' children' span')
  | atRule {children children' : List Node} (name prelude prelude' : String) (span span' : Span)
      (h : List.Forall₂ (Follows move) children children') :
      Follows move (.atRule name prelude (some children) span)
        (.atRule name prelude' (some children') span')
  | statement (name prelude prelude' : String) (span span' : Span) :
      Follows move (.atRule name prelude none span) (.atRule name prelude' none span')
  | declaration {declaration declaration' : Declaration}
      (h : declaration.Follows move declaration') :
      Follows move (.declaration declaration) (.declaration declaration')
  | raw (raw raw' : Raw) : Follows move (.raw raw) (.raw raw')

/-- Two visits to nodes of the same shape, in blocks of the same kind. -/
structure Visit.Follows (move : Nat → Nat) (visit visit' : Visit) : Prop where
  declaration? : Option.Rel (Declaration.Follows move) visit.declaration? visit'.declaration?
  insideFontFace : visit'.insideFontFace = visit.insideFontFace

mutual

theorem Node.Follows.visits {node node' : Node} (h : node.Follows move node')
    {parent parent' : Option Node}
    (hparent : parent'.any Node.isFontFace = parent.any Node.isFontFace) :
    List.Forall₂ (Visit.Follows move) (node.visits parent) (node'.visits parent') := by
  match node, node', h with
  | .rule selector children span, .rule selector' children' span', .rule _ _ _ _ h =>
    exact .cons ⟨.none, hparent⟩ (visitsIn_follows h rfl)
  | .atRule name prelude (some children) span, .atRule _ prelude' (some children') span',
      .atRule _ _ _ _ _ h =>
    exact .cons ⟨.none, hparent⟩ (visitsIn_follows h rfl)
  | .atRule _ _ none _, .atRule _ _ none _, .statement _ _ _ _ _ =>
    exact .cons ⟨.none, hparent⟩ .nil
  | .declaration _, .declaration _, .declaration h => exact .cons ⟨.some h, hparent⟩ .nil
  | .raw _, .raw _, .raw _ _ => exact .cons ⟨.none, hparent⟩ .nil

theorem visitsIn_follows {nodes nodes' : List Node}
    (h : List.Forall₂ (Node.Follows move) nodes nodes') {parent parent' : Option Node}
    (hparent : parent'.any Node.isFontFace = parent.any Node.isFontFace) :
    List.Forall₂ (Visit.Follows move) (visitsIn parent nodes) (visitsIn parent' nodes') := by
  match nodes, nodes', h with
  | [], [], .nil => exact .nil
  | node :: nodes, node' :: nodes', .cons h hothers =>
    exact List.rel_append (h.visits hparent) (visitsIn_follows hothers hparent)

end

theorem Visit.Follows.filter {visit visit' : Visit} (h : visit.Follows move visit')
    (accepts : Bool → String → Bool) :
    Option.Rel (Declaration.Follows move)
      (visit.declaration?.filter fun declaration =>
        accepts visit.insideFontFace declaration.property)
      (visit'.declaration?.filter fun declaration =>
        accepts visit'.insideFontFace declaration.property) := by
  obtain ⟨hdeclaration, hinside⟩ := h
  rw [hinside]
  generalize visit.declaration? = declaration at hdeclaration
  generalize visit'.declaration? = declaration' at hdeclaration
  cases hdeclaration with
  | none => exact .none
  | some hfollows =>
    rw [Option.filter_some, Option.filter_some, hfollows.property_eq]
    split
    · exact .some hfollows
    · exact .none

/-- The families of declarations that follow others are known if theirs are. -/
theorem mapM_follows {declarations declarations' : List Declaration} {lists : List NamedFamilies}
    (h : List.Forall₂ (Declaration.Follows move) declarations declarations')
    (hlists : declarations.mapM NamedFamilies.ofDeclaration? = .ok lists) :
    declarations'.mapM NamedFamilies.ofDeclaration? =
      .ok (lists.map (NamedFamilies.relocate move)) := by
  induction h generalizing lists with
  | nil =>
    cases hlists
    rfl
  | @cons declaration declaration' declarations declarations' hfirst hothers ih =>
    rw [List.mapM_cons] at hlists ⊢
    cases hfamilies : NamedFamilies.ofDeclaration? declaration with
    | error fault =>
      rw [hfamilies] at hlists
      cases hlists
    | ok families =>
      cases hrest : declarations.mapM NamedFamilies.ofDeclaration? with
      | error fault =>
        rw [hfamilies, hrest] at hlists
        cases hlists
      | ok others =>
        rw [hfamilies, hrest] at hlists
        cases hlists
        rw [hfirst.families _ hfamilies, ih hrest]
        rfl

section Search

variable {nodes nodes' : List Node} (h : List.Forall₂ (Node.Follows move) nodes nodes')

include h

theorem namings_follow :
    List.Forall₂ (Declaration.Follows move) (namings nodes) (namings nodes') :=
  List.rel_filterMap (fun _ _ hvisit => hvisit.filter fun insideFontFace property =>
    insideFontFace && property == "font-family") (visitsIn_follows h rfl)

theorem usings_follow (customProperties : Bool) :
    List.Forall₂ (Declaration.Follows move) (usings customProperties nodes)
      (usings customProperties nodes') :=
  List.rel_filterMap (fun _ _ hvisit => hvisit.filter fun insideFontFace property =>
    !insideFontFace && namesFamilies customProperties property) (visitsIn_follows h rfl)

/-- The same families are declared. -/
theorem declaredNames_follows {declared : Names} (hdeclared : declaredNames nodes = .ok declared) :
    declaredNames nodes' = .ok declared := by
  rw [declaredNames_eq] at hdeclared ⊢
  cases hlists : (namings nodes).mapM NamedFamilies.ofDeclaration? with
  | error fault =>
    rw [hlists] at hdeclared
    cases hdeclared
  | ok lists =>
    rw [hlists] at hdeclared
    cases hdeclared
    rw [mapM_follows (namings_follow h) hlists]
    exact congrArg (fun names => Except.ok (Std.ExtTreeSet.ofList names))
      (NamedFamilies.names_relocate lists)

/-- The same families are used, and the offsets of the uses are moved. -/
theorem familyUses_follows {declared : Names} {customProperties : Bool} {uses : List FamilyUse}
    (huses : familyUses nodes declared customProperties = .ok uses) :
    familyUses nodes' declared customProperties = .ok (uses.map (FamilyUse.relocate move)) := by
  rw [familyUses_eq] at huses ⊢
  cases hlists : (usings customProperties nodes).mapM NamedFamilies.ofDeclaration? with
  | error fault =>
    rw [hlists] at huses
    cases huses
  | ok lists =>
    rw [hlists] at huses
    cases huses
    rw [mapM_follows (usings_follow h customProperties) hlists]
    exact congrArg Except.ok (NamedFamilies.uses_relocate declared lists)

end Search

/-! ### The grammar -/

namespace Sheet

variable {place : Place} {cur next last : Cursor}

theorem upTo_stops_returned {text : List Char} {stop : Cursor} (h : cur.MovedBy move)
    (htext : cur.upTo stops 0 = .ok (text, stop)) :
    (cur.returned move).upTo stops 0 = .ok (withReturns text, stop.returned move) := by
  rw [Cursor.upTo_returned plain_stops (by decide) h, htext]
  rfl

theorem skipMark?_eq_some_iff : skipMark? cur = some next ↔
    Reads cur ['<', '!', '-', '-'] next ∨ Reads cur ['-', '-', '>'] next := by
  constructor
  · intro h
    unfold skipMark? at h
    split at h <;> cases h
    · exact .inl (Cursor.reads_pass ‹_›)
    · exact .inr (Cursor.reads_pass ‹_›)
  · rintro (h | h)
    · rw [skipMark?, h.rest_eq, eq_pass_of_reads h]
      rfl
    · rw [skipMark?, h.rest_eq, eq_pass_of_reads h]
      rfl

theorem skipMark?_returned (h : cur.MovedBy move) :
    skipMark? (cur.returned move) = (skipMark? cur).map (Cursor.returned move) := by
  cases hmark : skipMark? cur with
  | some next =>
    refine skipMark?_eq_some_iff.mpr ?_
    exact (skipMark?_eq_some_iff.mp hmark).imp h.reads_returned h.reads_returned
  | none =>
    rw [Option.map_none, Option.eq_none_iff_forall_ne_some]
    intro next hsome
    have hnone : ∀ last, skipMark? cur ≠ some last := by simp [hmark]
    rcases skipMark?_eq_some_iff.mp hsome with hreads | hreads
    · obtain ⟨last, hlast⟩ := Cursor.reads_of_returned (by decide) (by decide) hreads
      exact hnone last (skipMark?_eq_some_iff.mpr (.inl hlast))
    · obtain ⟨last, hlast⟩ := Cursor.reads_of_returned (by decide) (by decide) hreads
      exact hnone last (skipMark?_eq_some_iff.mpr (.inr hlast))

theorem head?_returned {c : Char} (hbreak : c ≠ '\n') (hreturn : c ≠ '\r') :
    (cur.returned move).rest.head? = some c ↔ cur.rest.head? = some c :=
  Text.head?_withReturns_eq_some_iff hbreak hreturn

theorem Begins.returned (h : Begins place cur) (hmoved : cur.MovedBy move) :
    Begins place (cur.returned move) := by
  refine ⟨Cursor.atToken_returned hmoved h.atToken, ?_,
    mt (head?_returned (by decide) (by decide)).mp h.ne_brace,
    mt (head?_returned (by decide) (by decide)).mp h.ne_semicolon, fun hplace => ?_⟩
  · rw [Cursor.returned_rest, ne_eq, Text.withReturns_eq_nil]
    exact h.ne_nil
  · rw [skipMark?_returned hmoved, h.no_mark hplace]
    rfl

theorem Named.returned {name : String} (h : Named cur name next) (hmoved : cur.MovedBy move) :
    Named (cur.returned move) name (next.returned move) := by
  obtain ⟨named, word, hat, hword, hname⟩ := h
  have hnamed := hmoved.of_reads (Cursor.reads_char? hat)
  refine ⟨named.returned move, word, ?_, ?_, hname⟩
  · rw [Cursor.char?_returned hmoved (by decide) (by decide), hat]
    rfl
  · rw [Cursor.identifier?_returned hnamed, hword]
    rfl

/-- The head of a block is read, and what is read in the block makes a node of the same shape. -/
theorem Opens.returned {head : Head} {brace inside : Cursor} (h : Opens cur head brace inside)
    (hmoved : cur.MovedBy move) :
    ∃ head', Opens (cur.returned move) head' (brace.returned move) (inside.returned move) ∧
      head'.place = head.place ∧ ∀ {children children' : List Node} (span span' : Span),
        List.Forall₂ (Node.Follows move) children children' →
          (head.node children span).Follows move (head'.node children' span') := by
  cases h with
  | atRule hname hprelude hbrace =>
    obtain ⟨word, hword, -⟩ := hname.reads
    have hnext := hmoved.of_reads hword
    have hstop := hnext.of_reads (Cursor.reads_upTo hprelude)
    exact ⟨_, .atRule (hname.returned hmoved) (upTo_stops_returned hnext hprelude)
      (hstop.reads_returned_of_notMem hbrace (by decide)), rfl,
      fun span span' hchildren => .atRule _ _ _ span span' hchildren⟩
  | rule hat hselector hbrace =>
    have hstop := hmoved.of_reads (Cursor.reads_upTo hselector)
    refine ⟨_, .rule ?_ (upTo_stops_returned hmoved hselector)
      (hstop.reads_returned_of_notMem hbrace (by decide)), rfl,
      fun span span' hchildren => .rule _ _ span span' hchildren⟩
    rw [Cursor.char?_returned hmoved (by decide) (by decide), hat]
    rfl

theorem Leaf.returned {node : Node} (h : Leaf cur place node next) (hmoved : cur.MovedBy move) :
    ∃ node', Leaf (cur.returned move) place node' (next.returned move) ∧
      node.Follows move node' := by
  cases h with
  | @atRule place next stop name prelude hplace hname hprelude hbrace =>
    obtain ⟨word, hword, -⟩ := hname.reads
    have hnext := hmoved.of_reads hword
    have hstop := hnext.of_reads (Cursor.reads_upTo hprelude)
    have hlast : ((stop.returned move).char? ';').getD (stop.returned move) =
        ((stop.char? ';').getD stop).returned move := by
      rw [Cursor.char?_returned hstop (by decide) (by decide), Option.getD_map]
    rw [← hlast]
    exact ⟨_, .atRule hplace (hname.returned hmoved) (upTo_stops_returned hnext hprelude)
      (mt (head?_returned (by decide) (by decide)).mp hbrace), .statement ..⟩
  | block hstatement hbrace hblock =>
    have hstop := hmoved.of_reads (Cursor.reads_upTo hstatement)
    exact ⟨_, .block (upTo_stops_returned hmoved hstatement)
      ((head?_returned (by decide) (by decide)).mpr hbrace)
      (Cursor.block_returned hstop hbrace hblock), .raw ..⟩
  | statement hstatement hbrace hat =>
    exact ⟨_, .statement (upTo_stops_returned hmoved hstatement)
      (mt (head?_returned (by decide) (by decide)).mp hbrace)
      ((Text.head?_withReturns_eq_some_iff (by decide) (by decide)).mpr hat), .raw ..⟩
  | declaration hstatement hbrace hat h =>
    have hreads := Cursor.reads_upTo hstatement
    have hpart := hmoved.of_prefix ⟨_, hreads.rest_eq.symm⟩
    obtain ⟨declaration', hread, hfollows⟩ := Declaration.ofStatement?_returned hpart h
    exact ⟨_, .declaration (upTo_stops_returned hmoved hstatement)
      (mt (head?_returned (by decide) (by decide)).mp hbrace)
      (mt (Text.head?_withReturns_eq_some_iff (by decide) (by decide)).mp hat) hread,
      .declaration hfollows⟩

/-- Nodes are read over lines that end in two characters as they were. -/
theorem Reading.returned {nodes : List Node} (h : Reading place cur nodes last)
    (hmoved : cur.MovedBy move) :
    ∃ nodes', Reading place (cur.returned move) nodes' (last.returned move) ∧
      List.Forall₂ (Node.Follows move) nodes nodes' := by
  induction h with
  | nil place cur => exact ⟨[], .nil _ _, .nil⟩
  | separator h others ih =>
    obtain ⟨separator, hreads, -⟩ := Cursor.reads_separator? h
    obtain ⟨nodes', hreading, hfollow⟩ := ih (hmoved.of_reads hreads)
    refine ⟨nodes', ?_, hfollow⟩
    rcases Cursor.separator?_returned_of_some hmoved h with hread | ⟨between, hfirst, hsecond⟩
    · exact .separator hread hreading
    · exact .separator hfirst (.separator hsecond hreading)
  | semicolon h others ih =>
    obtain ⟨nodes', hreading, hfollow⟩ := ih (hmoved.of_reads h)
    exact ⟨nodes', .semicolon (hmoved.reads_returned_of_notMem h (by decide)) hreading, hfollow⟩
  | mark h others ih =>
    obtain ⟨mark, hreads⟩ := reads_skipMark? h
    obtain ⟨nodes', hreading, hfollow⟩ := ih (hmoved.of_reads hreads)
    exact ⟨nodes', .mark (by rw [skipMark?_returned hmoved, h]; rfl) hreading, hfollow⟩
  | leaf hbegins h others ih =>
    obtain ⟨taken, hreads⟩ := h.reads
    obtain ⟨nodes', hreading, hfollow⟩ := ih (hmoved.of_reads hreads)
    obtain ⟨node', hleaf, hnode⟩ := h.returned hmoved
    exact ⟨_, .leaf (hbegins.returned hmoved) hleaf hreading, .cons hnode hfollow⟩
  | block hplace hbegins h inner hclose others ihInner ih =>
    obtain ⟨text, hhead, hopening⟩ := h.reads
    obtain ⟨taken, hinner⟩ := inner.reads
    have hinside := (hmoved.of_reads hhead).of_reads hopening
    have hclosed := hinside.of_reads hinner
    obtain ⟨children', hreadingInner, hchildren⟩ := ihInner hinside
    obtain ⟨nodes', hreading, hfollow⟩ := ih (hclosed.of_reads hclose)
    obtain ⟨head', hopens, hsame, hnode⟩ := h.returned hmoved
    rw [← hsame] at hreadingInner
    exact ⟨_, .block hplace (hbegins.returned hmoved) hopens hreadingInner
      (hclosed.reads_returned_of_notMem hclose (by decide)) hreading,
      .cons (hnode _ _ hchildren) hfollow⟩

end Sheet

/-- **Line endings do not matter where no backslash stands in front of them.** If a stylesheet is
read and searched, then so is its text with a carriage return in front of every line feed: it
declares the same families, and it has the same uses in the same order, each with its offset moved
by the carriage returns in front of it. -/
theorem families_with_returns {source : String} (hplain : PlainBreaks source.toList)
    {nodes : List Node} (hread : Sheet.ofText? source = .ok nodes) {declared : Names}
    (hdeclared : declaredNames nodes = .ok declared) {customProperties : Bool}
    {uses : List FamilyUse} (huses : familyUses nodes declared customProperties = .ok uses) :
    ∃ nodes', Sheet.ofText? (String.ofList (withReturns source.toList)) = .ok nodes' ∧
      declaredNames nodes' = .ok declared ∧
      familyUses nodes' declared customProperties =
        .ok (uses.map (FamilyUse.relocate (returnedOffset source.toList))) := by
  obtain ⟨last, hreading, hend⟩ := Sheet.ofText?_eq_ok_iff.mp hread
  obtain ⟨nodes', hreading', hfollow⟩ := hreading.returned (.start hplain)
  have hstart : (Cursor.start source.toList).returned (returnedOffset source.toList) =
      .start (String.ofList (withReturns source.toList)).toList := by
    rw [Cursor.returned_start, String.toList_ofList]
  rw [hstart] at hreading'
  have hend' : (last.returned (returnedOffset source.toList)).rest = [] := by
    rw [Cursor.returned_rest, hend, Text.withReturns_nil]
  exact ⟨nodes', Sheet.ofText?_eq_ok_iff.mpr ⟨_, hreading', hend'⟩,
    declaredNames_follows hfollow hdeclared, familyUses_follows hfollow huses⟩

/-- What a search finds, step by step. -/
theorem exists_search {source : String} {customProperties : Bool} {uses : List FamilyUse}
    (h : ((Sheet.ofText? source).bind fun nodes => (declaredNames nodes).bind fun declared =>
      familyUses nodes declared customProperties) = .ok uses) :
    ∃ nodes declared, Sheet.ofText? source = .ok nodes ∧ declaredNames nodes = .ok declared ∧
      familyUses nodes declared customProperties = .ok uses := by
  cases hread : Sheet.ofText? source with
  | error fault =>
    rw [hread] at h
    cases h
  | ok nodes =>
    cases hdeclared : declaredNames nodes with
    | error fault =>
      simp only [hread, Except.bind, hdeclared] at h
      cases h
    | ok declared =>
      simp only [hread, Except.bind, hdeclared] at h
      exact ⟨nodes, declared, rfl, hdeclared, h⟩

/-- A stylesheet with line feeds between rules, in a comment, behind an escape, around the parts of
a mark and in a custom property. -/
def brokenLines : String :=
  "@font-face\n\x7bfont-family:z\x7d\na\x7bfont\n:1em/*\n*/f\\41\n g,\nh\n!\nimportant;" ++
    "--k:\nq\n\x7d"

/-- The first use moves by the five carriage returns in front of its offset. -/
theorem families_with_returns_of_broken_lines :
    ∃ nodes' declared, Sheet.ofText? (String.ofList (withReturns brokenLines.toList)) = .ok nodes' ∧
      declaredNames nodes' = .ok declared ∧ familyUses nodes' declared true =
        .ok [⟨"fA g", ⟨["h"], none⟩, some 55⟩, ⟨"q", ⟨[], none⟩, none⟩] := by
  have hsearch : ((Sheet.ofText? brokenLines).bind fun nodes => (declaredNames nodes).bind
      fun declared => familyUses nodes declared true) =
        .ok [⟨"fA g", ⟨["h"], none⟩, some 50⟩, ⟨"q", ⟨[], none⟩, none⟩] := by
    decide +kernel
  obtain ⟨nodes, declared, hread, hdeclared, huses⟩ := exists_search hsearch
  obtain ⟨nodes', hread', hdeclared', huses'⟩ :=
    families_with_returns (by decide +kernel) hread hdeclared huses
  refine ⟨nodes', declared, hread', hdeclared', huses'.trans (congrArg Except.ok ?_)⟩
  decide +kernel

/-- A string that goes on behind an escaped line feed ends there with a carriage return in front of
the line feed: the text is refused. -/
theorem no_families_behind_escaped_break :
    ¬ ∀ (source : String) (nodes : List Node) (declared : Names) (customProperties : Bool)
      (uses : List FamilyUse), '\r' ∉ source.toList → Sheet.ofText? source = .ok nodes →
        declaredNames nodes = .ok declared →
        familyUses nodes declared customProperties = .ok uses →
        ∃ nodes', Sheet.ofText? (String.ofList (withReturns source.toList)) = .ok nodes' ∧
          declaredNames nodes' = .ok declared ∧
          familyUses nodes' declared customProperties =
            .ok (uses.map (FamilyUse.relocate (returnedOffset source.toList))) := by
  intro hclaim
  have hsearch : ((Sheet.ofText? "a\x7bfont-family:\"Foo\\\nBar\"\x7d").bind fun nodes =>
      (declaredNames nodes).bind fun declared => familyUses nodes declared false) =
        .ok [⟨"FooBar", ⟨[], none⟩, some 24⟩] := by
    decide +kernel
  obtain ⟨nodes, declared, hread, hdeclared, huses⟩ := exists_search hsearch
  obtain ⟨nodes', hread', -⟩ :=
    hclaim _ nodes declared false _ (by decide +kernel) hread hdeclared huses
  have hrefused : (Sheet.ofText? (String.ofList (withReturns
      "a\x7bfont-family:\"Foo\\\nBar\"\x7d".toList))).isOk = false := by
    decide +kernel
  rw [hread'] at hrefused
  cases hrefused

end WebFonts.Css
