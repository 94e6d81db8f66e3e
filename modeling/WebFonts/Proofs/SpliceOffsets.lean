import WebFonts.Css.FamilyUse
import WebFonts.Proofs.Tiling
import WebFonts.Revision.Basic

/-!
# Offsets at which names are spliced in

Every use of a family carries the offset just behind its first name. `spliceOffsets_of_familyUses`
says that these offsets increase in the order of the uses, and that each of them lies inside the
declaration that makes the use, on a character boundary of the source. Insertions at such offsets
are accepted, so that no revision fails for an insertion (`reviseBy_ne_insert`).

The offset of a use is the end of a token of a value. It is followed back through the families of
the value (`exists_of_firstStop`), the components of the value (`Component.Reading.split`) and the
declaration to the source. That the offsets increase is due to the order of the declarations
(`Sheet.Reading.declarations`).
-/

namespace WebFonts.Css

open Text (size isBlank isBoundary trimEnd)
open Cursor (Reads)

/-! ### The first name of a value -/

namespace NamedFamilies

variable {components : List Component} {stop : Nat}

/-- A token that can be the end of a family name. -/
def NamesFamily (leaf : Token) : Prop :=
  ∃ text, leaf = .ident text ∨ leaf = .string text

theorem exists_of_namesIn {entry : List Component} {name : String}
    (h : (name, stop) ∈ namesIn entry) :
    ∃ span leaf, .token span leaf ∈ entry ∧ NamesFamily leaf ∧ span.stop = stop := by
  rw [namesIn, List.mem_append] at h
  rcases h with hstring | hwords
  · obtain ⟨component, hmem, hstring⟩ := List.mem_filterMap.mp hstring
    unfold string? at hstring
    split at hstring <;> cases hstring
    exact ⟨_, _, hmem, ⟨_, .inr rfl⟩, rfl⟩
  · rw [Option.mem_toList, joinedWords?, Option.map_eq_some_iff] at hwords
    obtain ⟨⟨word, wordStop⟩, hlast, heq⟩ := hwords
    cases heq
    obtain ⟨component, hmem, hword⟩ :=
      List.mem_filterMap.mp (List.mem_of_getLast? hlast)
    unfold word? at hword
    split at hword
    · split at hword <;> cases hword
      exact ⟨_, _, hmem, ⟨_, .inl rfl⟩, rfl⟩
    · cases hword

theorem mem_of_mem_splitOnP {α : Type} {p : α → Bool} {as part : List α} {a : α}
    (hpart : part ∈ as.splitOnP p) (h : a ∈ part) : a ∈ as := by
  induction as generalizing part with
  | nil =>
    rw [List.splitOnP_nil, List.mem_singleton] at hpart
    subst hpart
    exact h
  | cons b as ih =>
    obtain ⟨first, parts, hparts⟩ := List.exists_cons_of_ne_nil (List.splitOnP_ne_nil p as)
    rw [List.splitOnP_cons_eq_if_modifyHead, hparts] at hpart
    rw [hparts] at ih
    split at hpart
    · rcases List.mem_cons.mp hpart with rfl | hpart
      · cases h
      · exact List.mem_cons_of_mem b (ih hpart h)
    · rcases List.mem_cons.mp hpart with rfl | hpart
      · rcases List.mem_cons.mp h with rfl | h
        · exact List.mem_cons_self ..
        · exact List.mem_cons_of_mem b (ih (List.mem_cons_self ..) h)
      · exact List.mem_cons_of_mem b (ih (List.mem_cons_of_mem first hpart) h)

/-- What stands behind the font size is the end of the value. -/
theorem behindSize_suffix (components : List Component) : behindSize components <:+ components := by
  have hdrop := components.dropWhile_suffix (!isSize ·)
  unfold behindSize
  split
  · rename_i size span rest heq
    rw [heq] at hdrop
    exact ((rest.drop_suffix 1).trans ⟨[size, .token span .slash], rfl⟩).trans hdrop
  · rename_i size rest _ heq
    rw [heq] at hdrop
    exact (List.suffix_cons size rest).trans hdrop
  · exact List.nil_suffix

/-- The offset behind the first family is the end of a token of the value. -/
theorem exists_of_firstStop {property : String}
    (h : (ofValue property components).firstStop = some stop) :
    ∃ span leaf, .token span leaf ∈ components ∧ NamesFamily leaf ∧ span.stop = stop := by
  have hof {list : List Component} (h : (ofComponents list).firstStop = some stop) :
      ∃ span leaf, .token span leaf ∈ list ∧ NamesFamily leaf ∧ span.stop = stop := by
    obtain ⟨⟨name, last⟩, hhead, rfl⟩ := Option.map_eq_some_iff.mp h
    obtain ⟨entry, hentry, hname⟩ := List.mem_flatMap.mp (List.mem_of_head? hhead)
    obtain ⟨span, leaf, hmem, hleaf, hstop⟩ := exists_of_namesIn hname
    exact ⟨span, leaf, mem_of_mem_splitOnP hentry hmem, hleaf, hstop⟩
  unfold ofValue at h
  split at h
  · obtain ⟨span, leaf, hmem, hrest⟩ := hof h
    exact ⟨span, leaf, (behindSize_suffix components).mem hmem, hrest⟩
  · exact hof h

end NamedFamilies

/-! ### Declarations of a source -/

/-- A declaration is read from a statement of a source. -/
def Declaration.ReadFrom (source : String) (declaration : Declaration) : Prop :=
  ∃ cur statement next, cur.In source ∧ Reads cur statement next ∧
    ofStatement? ⟨cur.offset, statement⟩ = .ok declaration

/-- Names can be spliced into a source at an offset inside a span. -/
structure SpliceInside (source : String) (span : Span) (offset : Nat) : Prop where
  behind_start : span.start < offset
  le_stop : offset ≤ span.stop
  le_size : offset ≤ size source.toList
  boundary : isBoundary offset source.toList = true

theorem Cursor.In.boundary {source : String} {cur : Cursor} (h : cur.In source) :
    cur.offset ≤ size source.toList ∧ isBoundary cur.offset source.toList = true := by
  obtain ⟨front, hrest, hoffset⟩ := h
  simp only [Cursor.start, Nat.zero_add] at hrest hoffset
  refine ⟨?_, Text.isBoundary_iff.mpr ⟨front, cur.rest, hrest, hoffset.symm⟩⟩
  rw [hrest, Text.size_append, hoffset]
  omega

theorem value_eq_components {property : String} {cur : Cursor} {text : List Char}
    {components : List Component}
    (h : Declaration.readValue property cur text = .ok (.components components)) :
    Component.readAll ⟨cur.offset, trimEnd text⟩ = .ok components := by
  unfold Declaration.readValue at h
  dsimp only at h
  split at h
  · cases h
  · cases hcomponents : Component.readAll ⟨cur.offset, trimEnd text⟩ with
    | error fault => rw [hcomponents] at h; cases h
    | ok found => rw [hcomponents] at h; cases h; rfl

/-- The value of a declaration ends inside its span. -/
theorem Declaration.value_le_stop {statement behind : Cursor} {front : List Char}
    (h : Reads statement (front ++ [':']) behind) :
    behind.offset + size (trimEnd (cutImportant behind.rest).1) ≤
      statement.offset + size (trimEnd statement.rest) := by
  obtain ⟨mark, hmark⟩ := cutImportant_append_eq behind.rest
  obtain ⟨blanks, hblanks, -⟩ := Text.trimEnd_append (cutImportant behind.rest).1
  generalize hkept : trimEnd (cutImportant behind.rest).1 = kept at hblanks ⊢
  have hstatement : statement.rest = front ++ [':'] ++ kept ++ (blanks ++ mark) := by
    have hrest := h.rest_eq
    rw [← hmark, ← hblanks] at hrest
    simpa using hrest
  -- the statement up to the end of the value loses nothing when it is trimmed
  have hwhole : trimEnd (front ++ [':'] ++ kept) = front ++ [':'] ++ kept := by
    have hcolon : trimEnd (front ++ [':']) = front ++ [':'] :=
      trimEnd_of_getLast? List.getLast?_concat (by decide)
    rw [trimEnd_append, ← hkept, trimEnd_trimEnd]
    split
    · rename_i hnil
      rw [hcolon, hnil, List.append_nil]
    · rfl
  obtain ⟨others, hprefix⟩ := trimEnd_prefix hwhole
  rw [hstatement, hprefix, h.offset_eq]
  simp only [Text.size_append]
  omega

/-- The components of a declaration are read from its source and inside its span. -/
theorem Declaration.ReadFrom.components_inside {source : String} {declaration : Declaration}
    {components : List Component} (h : declaration.ReadFrom source)
    (hcomponents : declaration.value = .components components) :
    ∃ begun last, Component.Reading false begun components last ∧
      (∃ behind, (Cursor.mk begun.offset (begun.rest ++ behind)).In source) ∧
      declaration.span.start < begun.offset ∧ last.offset ≤ declaration.span.stop := by
  obtain ⟨cur, statement, next, hin, hreads, hread⟩ := h
  obtain ⟨named, colon, behind, hproperty, hskip, hcolon, hvalue, -, hspan⟩ :=
    Declaration.ofStatement?_eq_ok hread
  obtain ⟨front, hbehind⟩ := Declaration.reads_value hproperty hskip hcolon
  rw [hcomponents] at hvalue
  obtain ⟨last, hreading, hend⟩ := Component.readAll_eq_ok_iff.mp (value_eq_components hvalue)
  obtain ⟨mark, hmark⟩ := cutImportant_append_eq behind.rest
  obtain ⟨blanks, hblanks, -⟩ := Text.trimEnd_append (cutImportant behind.rest).1
  obtain ⟨taken, htaken⟩ := hreading.reads
  refine ⟨_, last, hreading, ⟨blanks ++ mark ++ next.rest, ?_⟩, ?_, ?_⟩
  · refine hin.reads ⟨?_, hbehind.offset_eq⟩
    have hstatement : statement = front ++ [':'] ++ behind.rest := hbehind.rest_eq
    rw [← hmark, ← hblanks] at hstatement
    rw [hreads.rest_eq, hstatement]
    simp
  · rw [hspan]
    exact hbehind.offset_lt (by simp)
  · have hlast := htaken.offset_eq
    have hrest := htaken.rest_eq
    rw [hend, List.append_nil] at hrest
    rw [hspan, hlast, ← hrest]
    exact Declaration.value_le_stop hbehind

/-- Names are spliced into the declaration whose first family they follow. -/
theorem Declaration.ReadFrom.spliceInside {source : String} {declaration : Declaration}
    {families : NamedFamilies} {offset : Nat} (h : declaration.ReadFrom source)
    (hfamilies : NamedFamilies.ofDeclaration? declaration = .ok families)
    (hstop : families.firstStop = some offset) :
    SpliceInside source declaration.span offset := by
  unfold NamedFamilies.ofDeclaration? at hfamilies
  split at hfamilies
  · rename_i components hcomponents
    cases hfamilies
    obtain ⟨begun, last, hreading, ⟨behind, hin⟩, hstart, hlast⟩ := h.components_inside hcomponents
    obtain ⟨span, leaf, hmem, ⟨text, hleaf⟩, rfl⟩ := NamedFamilies.exists_of_firstStop hstop
    have hwithin := hreading.within _ hmem
    obtain ⟨before, after, rfl⟩ := List.append_of_mem hmem
    obtain ⟨token, ended, hfront, htoken, hpiece, rfl, hback⟩ :=
      hreading.split (by rcases hleaf with rfl | rfl <;> nofun)
    obtain ⟨taken, htaken⟩ := hfront.reads
    obtain ⟨text, htext, -⟩ := Cursor.reads_piece? hpiece
    obtain ⟨hle, hboundary⟩ := (hin.reads ((htaken.trans htext).append_rest behind)).boundary
    exact ⟨hstart.trans hwithin.1, hwithin.2.trans hlast, hle, hboundary⟩
  · rename_i raw hraw
    simp only [bind, Except.bind, pure, Except.pure] at hfamilies
    split at hfamilies <;> cases hfamilies
    cases hstop

/-! ### Declarations in the order of their visits -/

/-- The declarations among nodes and in their blocks, in the order of their visits. -/
def declarationsIn (parent : Option Node) (nodes : List Node) : List Declaration :=
  (visitsIn parent nodes).filterMap Visit.declaration?

/-- The declarations of a node and of its block. -/
def Node.declarations (parent : Option Node) (node : Node) : List Declaration :=
  (node.visits parent).filterMap Visit.declaration?

theorem declarationsIn_cons (parent : Option Node) (node : Node) (nodes : List Node) :
    declarationsIn parent (node :: nodes) =
      node.declarations parent ++ declarationsIn parent nodes := by
  rw [declarationsIn, visitsIn, List.filterMap_append]
  rfl

/-- Declarations stand in a source one after another, between two offsets. -/
structure InOrder (source : String) (start stop : Nat) (declarations : List Declaration) :
    Prop where
  readFrom : ∀ declaration ∈ declarations, declaration.ReadFrom source
  within : ∀ declaration ∈ declarations,
    start ≤ declaration.span.start ∧ declaration.span.stop ≤ stop
  ordered : declarations.Pairwise fun first second => first.span.stop ≤ second.span.start

namespace InOrder

variable {source : String} {start middle stop : Nat} {front back : List Declaration}

theorem nil (source : String) (start stop : Nat) : InOrder source start stop [] :=
  ⟨nofun, nofun, .nil⟩

theorem widen {start' stop' : Nat} (h : InOrder source start stop front) (hstart : start' ≤ start)
    (hstop : stop ≤ stop') : InOrder source start' stop' front := by
  refine ⟨h.readFrom, fun declaration hmem => ?_, h.ordered⟩
  have := h.within declaration hmem
  omega

theorem append (hfront : InOrder source start middle front)
    (hback : InOrder source middle stop back) (hstart : start ≤ middle) (hstop : middle ≤ stop) :
    InOrder source start stop (front ++ back) := by
  refine ⟨?_, ?_, List.pairwise_append.mpr ⟨hfront.ordered, hback.ordered, ?_⟩⟩
  · intro declaration hmem
    rcases List.mem_append.mp hmem with hmem | hmem
    · exact hfront.readFrom declaration hmem
    · exact hback.readFrom declaration hmem
  · intro declaration hmem
    rcases List.mem_append.mp hmem with hmem | hmem
    · have := hfront.within declaration hmem
      omega
    · have := hback.within declaration hmem
      omega
  · intro first hfirst second hsecond
    have := hfront.within first hfirst
    have := hback.within second hsecond
    omega

end InOrder

namespace Sheet

variable {source : String} {place : Place} {cur next last : Cursor}

theorem declarations_node (head : Head) (children : List Node) (span : Span)
    (parent : Option Node) :
    (head.node children span).declarations parent =
      declarationsIn (some (head.node children span)) children := by
  cases head <;> rfl

theorem Leaf.declarations {node : Node} (h : Leaf cur place node next) (hin : cur.In source)
    (parent : Option Node) :
    InOrder source cur.offset next.offset (node.declarations parent) := by
  obtain ⟨-, hstart, ended, taken, blanks, hstop, -, hblanks, -⟩ := h.placed hin
  cases h with
  | atRule => exact .nil ..
  | block => exact .nil ..
  | statement => exact .nil ..
  | @declaration next statement declaration hstatement hbrace hat hread =>
    have hwithin : cur.offset ≤ declaration.span.start ∧ declaration.span.stop ≤ next.offset :=
      ⟨hstart.ge, hstop ▸ hblanks.offset_le⟩
    have hreadFrom : declaration.ReadFrom source :=
      ⟨cur, _, next, hin, Cursor.reads_upTo hstatement, hread⟩
    have hone : (Node.declaration declaration).declarations parent = [declaration] := rfl
    rw [hone]
    exact ⟨by simpa using hreadFrom, by simpa using hwithin, List.pairwise_singleton ..⟩

/-- The declarations that are read stand in the source one after another. -/
theorem Reading.declarations {nodes : List Node} (h : Reading place cur nodes last)
    (hin : cur.In source) (parent : Option Node) :
    InOrder source cur.offset last.offset (declarationsIn parent nodes) := by
  induction h generalizing parent with
  | nil => exact .nil ..
  | separator h others ih =>
    obtain ⟨separator, hfirst, -⟩ := Cursor.reads_separator? h
    exact (ih (hin.reads hfirst) parent).widen hfirst.offset_le le_rfl
  | semicolon h others ih => exact (ih (hin.reads h) parent).widen h.offset_le le_rfl
  | mark h others ih =>
    obtain ⟨mark, hfirst⟩ := reads_skipMark? h
    exact (ih (hin.reads hfirst) parent).widen hfirst.offset_le le_rfl
  | leaf hbegins h others ih =>
    obtain ⟨text, hfirst⟩ := h.reads
    obtain ⟨taken, hothers⟩ := others.reads
    rw [declarationsIn_cons]
    exact (h.declarations hin parent).append (ih (hin.reads hfirst) parent) hfirst.offset_le
      hothers.offset_le
  | block hplace hbegins h inner hclose others ihInner ih =>
    obtain ⟨text, hhead, hopening⟩ := h.reads
    obtain ⟨children, hinner⟩ := inner.reads
    obtain ⟨taken, hothers⟩ := others.reads
    have hinside := hhead.trans hopening
    rw [declarationsIn_cons, declarations_node]
    refine .append ?_ (ih (hin.reads ((hinside.trans hinner).trans hclose)) parent)
      ((hinside.trans hinner).trans hclose).offset_le hothers.offset_le
    exact (ihInner (hin.reads hinside) _).widen hinside.offset_le hclose.offset_le

/-- The declarations of a stylesheet stand in it one after another. -/
theorem declarations_of_ofText? {nodes : List Node} (h : ofText? source = .ok nodes) :
    InOrder source 0 (size source.toList) ((visits nodes).filterMap Visit.declaration?) :=
  (reading_of_ofText? h).1.declarations ⟨[], .refl _⟩ none

end Sheet

/-! ### Uses and the declarations that make them -/

/-- A declaration makes a use. -/
def FamilyUse.MadeBy (declared : Names) (use : FamilyUse) (declaration : Declaration) : Prop :=
  ∃ families, NamedFamilies.ofDeclaration? declaration = .ok families ∧
    NamedFamilies.use? declared families = some use

theorem spliceAt_of_use? {declared : Names} {families : NamedFamilies} {use : FamilyUse}
    (h : NamedFamilies.use? declared families = some use) : use.spliceAt = families.firstStop := by
  simp only [NamedFamilies.use?, bind, Option.bind_eq_some_iff] at h
  obtain ⟨family, -, h⟩ := h
  split at h <;> cases h
  rfl

/-- The uses come from some of the declarations, in the same order. -/
theorem forall₂_of_mapM {declared : Names} {declarations : List Declaration}
    {lists : List NamedFamilies} (h : declarations.mapM NamedFamilies.ofDeclaration? = .ok lists) :
    ∃ makers, makers.Sublist declarations ∧
      List.Forall₂ (FamilyUse.MadeBy declared) (lists.filterMap (NamedFamilies.use? declared))
        makers := by
  induction declarations generalizing lists with
  | nil =>
    cases h
    exact ⟨[], .refl _, .nil⟩
  | cons declaration declarations ih =>
    simp only [List.mapM_cons, bind, Except.bind, pure, Except.pure] at h
    split at h
    · cases h
    · rename_i families hfamilies
      split at h
      · cases h
      · rename_i others hothers
        cases h
        obtain ⟨makers, hsublist, hforall⟩ := ih hothers
        cases huse : NamedFamilies.use? declared families with
        | none =>
          rw [List.filterMap_cons_none huse]
          exact ⟨makers, hsublist.cons _, hforall⟩
        | some use =>
          rw [List.filterMap_cons_some huse]
          exact ⟨declaration :: makers, hsublist.cons_cons _,
            .cons ⟨families, hfamilies, huse⟩ hforall⟩

theorem sublist_filterMap {α β : Type} {f g : α → Option β} (h : ∀ a b, f a = some b → g a = some b)
    (as : List α) : (as.filterMap f).Sublist (as.filterMap g) := by
  induction as with
  | nil => exact .refl _
  | cons a as ih =>
    cases hf : f a with
    | none =>
      rw [List.filterMap_cons_none hf]
      cases hg : g a with
      | none => rwa [List.filterMap_cons_none hg]
      | some b =>
        rw [List.filterMap_cons_some hg]
        exact ih.cons b
    | some b =>
      rw [List.filterMap_cons_some hf, List.filterMap_cons_some (h a b hf)]
      exact ih.cons_cons b

theorem declaration?_of_using? {customProperties : Bool} {visit : Visit} {declaration : Declaration}
    (h : visit.using? customProperties = some declaration) :
    visit.declaration? = some declaration :=
  (Option.filter_eq_some_iff.mp h).1

/-- A use is made by a declaration, and names can be spliced into it at its offset, if it has
one. -/
def FamilyUse.SplicedInto (source : String) (declared : Names) (use : FamilyUse)
    (declaration : Declaration) : Prop :=
  use.MadeBy declared declaration ∧
    ∀ offset, use.spliceAt = some offset → SpliceInside source declaration.span offset

theorem splicedInto_of_madeBy {source : String} {declared : Names} {uses : List FamilyUse}
    {makers : List Declaration} (hmakers : ∀ declaration ∈ makers, declaration.ReadFrom source)
    (h : List.Forall₂ (FamilyUse.MadeBy declared) uses makers) :
    List.Forall₂ (FamilyUse.SplicedInto source declared) uses makers := by
  induction h with
  | nil => exact .nil
  | cons huse others ih =>
    refine .cons ⟨huse, fun offset hoffset => ?_⟩ (ih fun declaration hmem =>
      hmakers declaration (List.mem_cons_of_mem _ hmem))
    obtain ⟨families, hfamilies, hmade⟩ := huse
    rw [spliceAt_of_use? hmade] at hoffset
    exact (hmakers _ (List.mem_cons_self ..)).spliceInside hfamilies hoffset

theorem exists_of_forall₂ {α β : Type} {r : α → β → Prop} {as : List α} {bs : List β} {a : α}
    (h : List.Forall₂ r as bs) (ha : a ∈ as) : ∃ b ∈ bs, r a b := by
  induction h with
  | nil => cases ha
  | cons hr others ih =>
    rcases List.mem_cons.mp ha with rfl | ha
    · exact ⟨_, List.mem_cons_self .., hr⟩
    · obtain ⟨b, hb, hab⟩ := ih ha
      exact ⟨b, List.mem_cons_of_mem _ hb, hab⟩

theorem pairwise_of_splicedInto {source : String} {declared : Names} {uses : List FamilyUse}
    {makers : List Declaration}
    (hordered : makers.Pairwise fun first second => first.span.stop ≤ second.span.start)
    (h : List.Forall₂ (FamilyUse.SplicedInto source declared) uses makers) :
    (uses.filterMap FamilyUse.spliceAt).Pairwise (· < ·) := by
  induction h with
  | nil => exact .nil
  | @cons use maker uses makers huse others ih =>
    obtain ⟨hbefore, hordered⟩ := List.pairwise_cons.mp hordered
    have ih := ih hordered
    cases hspliceAt : use.spliceAt with
    | none => rwa [List.filterMap_cons_none hspliceAt]
    | some offset =>
      rw [List.filterMap_cons_some hspliceAt]
      refine List.pairwise_cons.mpr ⟨fun later hlater => ?_, ih⟩
      obtain ⟨other, hother, hlater⟩ := List.mem_filterMap.mp hlater
      obtain ⟨declaration, hdeclaration, hspliced⟩ := exists_of_forall₂ others hother
      have := (huse.2 offset hspliceAt).le_stop
      have := (hspliced.2 later hlater).behind_start
      have := hbefore declaration hdeclaration
      omega

/-- The uses of a stylesheet are made by its declarations, in the same order; the offsets at which
names can be spliced in lie inside these declarations and increase. -/
theorem spliceOffsets_of_familyUses {source : String} {nodes : List Node} {declared : Names}
    {customProperties : Bool} {uses : List FamilyUse} (h : Sheet.ofText? source = .ok nodes)
    (huses : familyUses nodes declared customProperties = .ok uses) :
    (∃ makers, makers.Sublist ((visits nodes).filterMap (Visit.using? customProperties)) ∧
        List.Forall₂ (FamilyUse.SplicedInto source declared) uses makers) ∧
      (uses.filterMap FamilyUse.spliceAt).Pairwise (· < ·) := by
  have hinOrder := Sheet.declarations_of_ofText? h
  simp only [familyUses, bind, Except.bind, pure, Except.pure] at huses
  split at huses
  · cases huses
  · rename_i lists hlists
    cases huses
    obtain ⟨makers, hsublist, hmade⟩ := forall₂_of_mapM hlists
    have hall := hsublist.trans
      (sublist_filterMap (fun _ _ => declaration?_of_using?) (visits nodes))
    have hspliced := splicedInto_of_madeBy
      (fun declaration hmem => hinOrder.readFrom declaration (hall.subset hmem)) hmade
    exact ⟨⟨makers, hsublist, hspliced⟩,
      pairwise_of_splicedInto (hinOrder.ordered.sublist hall) hspliced⟩

/-- Names can be spliced in between two characters only. -/
theorem boundary_of_familyUses {source : String} {nodes : List Node} {declared : Names}
    {customProperties : Bool} {uses : List FamilyUse} (h : Sheet.ofText? source = .ok nodes)
    (huses : familyUses nodes declared customProperties = .ok uses) :
    ∀ use ∈ uses, ∀ offset, use.spliceAt = some offset →
      Text.isBoundary offset source.toList = true := by
  intro use hmem offset hoffset
  obtain ⟨⟨makers, -, hmakers⟩, -⟩ := spliceOffsets_of_familyUses h huses
  obtain ⟨maker, -, -, hspliced⟩ := exists_of_forall₂ hmakers hmem
  exact (hspliced offset hoffset).boundary

/-- A stylesheet whose uses were computed is read, and so are its uses. -/
theorem exists_uses_of_map {α : Type} {source : String} {declared : Names}
    {customProperties : Bool} {f : List FamilyUse → α} {value : α}
    (h : ((Sheet.ofText? source).bind fun nodes =>
      (familyUses nodes declared customProperties).map f) = .ok value) :
    ∃ nodes uses, Sheet.ofText? source = .ok nodes ∧
      familyUses nodes declared customProperties = .ok uses ∧ f uses = value := by
  generalize hnodes : Sheet.ofText? source = outcome at h
  cases outcome with
  | error fault => cases h
  | ok nodes =>
    rw [Except.bind] at h
    generalize huses : familyUses nodes declared customProperties = outcome at h
    cases outcome with
    | error fault => cases h
    | ok uses => exact ⟨nodes, uses, rfl, huses, Except.ok.inj h⟩

end WebFonts.Css

/-! ### Insertions are accepted -/

namespace WebFonts

open Text (isBoundary)
open Css (FamilyUse Names)

theorem Overlay.insert_ne_error {offset : Nat} {text : String} {overlay : Overlay}
    (h : isBoundary offset overlay.source.toList = true) (fault : InsertFault) :
    overlay.insert offset text ≠ .error fault := by
  rw [insert_eq_ok_iff.mpr ⟨h, rfl⟩]
  exact nofun

namespace Draft

variable (tools : Tools) (options : Options) (use : FamilyUse) (family : Family) (draft : Draft)

/-- Applying a family leaves the source as it is. -/
theorem source_apply :
    (draft.apply tools options use family).1.overlay.source = draft.overlay.source := by
  unfold apply
  dsimp only
  split
  · split
    · rename_i overlay hinsert
      obtain ⟨-, rfl⟩ := Overlay.insert_eq_ok_iff.mp hinsert
      exact Overlay.source_place ..
    · rfl
  · rfl

variable {use draft} in
/-- A family can be applied if names can be inserted behind its own name. -/
theorem exists_report_of_apply
    (h : ∀ offset, use.spliceAt = some offset →
      isBoundary offset draft.overlay.source.toList = true) :
    ∃ report, (draft.apply tools options use family).2 = .ok report := by
  unfold apply
  dsimp only
  split
  · rename_i name names offset hnames hspliceAt
    split
    · exact ⟨_, rfl⟩
    · rename_i fault hrefused
      -- the rules went in front of the source, which is the same still
      refine absurd hrefused (Overlay.insert_ne_error ?_ fault)
      exact h offset hspliceAt
  · exact ⟨_, rfl⟩

/-- No run fails because names cannot be inserted, if they can be behind the families of all
uses. -/
theorem enterAll_ne_insert (fault : InsertFault) (replies : List Reply)
    (h : ∀ reply ∈ replies, ∀ offset, reply.use.spliceAt = some offset →
      isBoundary offset draft.overlay.source.toList = true) :
    (draft.enterAll tools options replies).2 ≠ .error (.insert fault) := by
  induction replies generalizing draft with
  | nil => exact nofun
  | cons reply rest ih =>
    have hothers := fun draft' (hsource : draft'.overlay.source = draft.overlay.source) =>
      ih draft' fun other hmem => hsource ▸ h other (List.mem_cons_of_mem reply hmem)
    unfold enterAll
    split
    · exact nofun
    · exact nofun
    · exact hothers draft rfl
    · rename_i family hfound
      obtain ⟨report, hreport⟩ := exists_report_of_apply tools options family
        (h reply (List.mem_cons_self ..))
      have hsource := source_apply tools options reply.use family draft
      split
      · rename_i draft' fault' happly
        rw [happly] at hreport
        cases hreport
      · rename_i draft' report' happly
        rw [happly] at hsource
        exact hothers draft' hsource

end Draft

theorem Lookups.use_of_mem_replies (lookups : Lookups) {uses : List FamilyUse} {reply : Reply}
    (h : reply ∈ lookups.replies uses) : reply.use ∈ uses :=
  (lookups.perm uses).mem_iff.mp (List.mem_map_of_mem h)

namespace Reviser

variable (reviser : Reviser) (options : Options)

/-- No revision fails because names cannot be inserted. -/
theorem reviseBy_ne_insert (lookups : Lookups) (source : String) (registry : Registry)
    (fault : InsertFault) :
    (reviser.reviseBy lookups options source registry).2 ≠ .error (.insert fault) := by
  unfold reviseBy
  split
  · exact nofun
  · exact nofun
  · rename_i uses hempty huses
    split
    · simp only [usesOf?, bind, Except.bind] at huses
      split at huses
      · cases huses
      · rename_i nodes hnodes
        split at huses
        · cases huses
        · rename_i declared hdeclared
          have hne := Draft.enterAll_ne_insert reviser.tools options
            (.ofSource source registry) fault (lookups.replies uses) fun reply hmem =>
              Css.boundary_of_familyUses hnodes huses reply.use (lookups.use_of_mem_replies hmem)
          generalize Draft.enterAll _ _ _ (Draft.ofSource source registry) = run at hne ⊢
          obtain ⟨draft, outcome⟩ := run
          intro heq
          cases outcome with
          | error found =>
            cases heq
            exact hne rfl
          | ok done => cases heq
    · exact nofun

/-- Names are spliced into a stylesheet at valid places only. For every stylesheet that is read, and
whatever families count as declared, the offsets of the uses increase, and each lies inside the
declaration that makes the use, within the source and on a character boundary. Therefore no
revision fails because names cannot be inserted, in whatever order the lookups end. -/
theorem splices_are_valid (source : String) :
    (∀ nodes declared customProperties uses, Css.Sheet.ofText? source = .ok nodes →
      Css.familyUses nodes declared customProperties = .ok uses →
        (∃ makers,
          makers.Sublist ((Css.visits nodes).filterMap (Css.Visit.using? customProperties)) ∧
            List.Forall₂ (FamilyUse.SplicedInto source declared) uses makers) ∧
          (uses.filterMap FamilyUse.spliceAt).Pairwise (· < ·)) ∧
      ∀ (reviser : Reviser) (lookups : Lookups) (options : Options) (registry : Registry)
        (fault : InsertFault),
        (reviser.reviseBy lookups options source registry).2 ≠ .error (.insert fault) :=
  ⟨fun _ _ _ _ h huses => Css.spliceOffsets_of_familyUses h huses,
    fun reviser lookups options registry fault =>
      reviser.reviseBy_ne_insert options lookups source registry fault⟩

/-- In a stylesheet that uses two families, names can be spliced in behind both of them. -/
theorem splices_are_valid_of_two_uses :
    ∃ nodes uses, Css.Sheet.ofText?
        "a \x7b font: 1em 'é', b \x7d b \x7b font-family: x y ! important \x7d" = .ok nodes ∧
      Css.familyUses nodes ∅ false = .ok uses ∧
      uses.filterMap FamilyUse.spliceAt = [18, 44] ∧
      ∃ makers, makers.Sublist ((Css.visits nodes).filterMap (Css.Visit.using? false)) ∧
        List.Forall₂ (FamilyUse.SplicedInto
          "a \x7b font: 1em 'é', b \x7d b \x7b font-family: x y ! important \x7d" ∅)
          uses makers := by
  have hoffsets : ((Css.Sheet.ofText?
      "a \x7b font: 1em 'é', b \x7d b \x7b font-family: x y ! important \x7d").bind fun nodes =>
        (Css.familyUses nodes ∅ false).map (·.filterMap FamilyUse.spliceAt)) = .ok [18, 44] := by
    decide +kernel
  generalize hnodes : Css.Sheet.ofText? _ = outcome at hoffsets
  cases outcome with
  | error fault => cases hoffsets
  | ok nodes =>
    rw [Except.bind] at hoffsets
    generalize huses : Css.familyUses nodes ∅ false = outcome at hoffsets
    cases outcome with
    | error fault => cases hoffsets
    | ok uses =>
      exact ⟨nodes, uses, rfl, huses, Except.ok.inj hoffsets,
        ((splices_are_valid _).1 nodes ∅ false uses hnodes huses).1⟩

end Reviser

end WebFonts
