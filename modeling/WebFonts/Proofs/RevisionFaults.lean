import WebFonts.Proofs.ExactUses
import WebFonts.Proofs.LocatedFaults
import WebFonts.Proofs.Replies
import WebFonts.Proofs.Shifting

/-!
# Where a revision that cannot be read points

A revision is refused with a parse fault in two cases. `Reviser.parse_fault_located` says where the
fault points in each. If the stylesheet cannot be read, it points at what it names in the
stylesheet, and a parenthesis that is missing is reported inside the declaration that lacks it. If
the families of a custom property cannot be read, it points at what it names in the text of this
property alone: the place in the stylesheet is further on, by the offset at which that text begins.

A missing parenthesis is reported for a statement that is read as a declaration, and no other
reader reports it (`Sheet.exists_declaration_of_advance`); it is missed behind the colon
(`Declaration.behind_colon_of_missing`). A value is read in the same way wherever it stands, so that
a fault in the text of a custom property is seen in the stylesheet where this text begins
(`Declaration.ReadFrom.raw_refused`).
-/

namespace WebFonts.Css

open Cursor (Reads)
open Text (size trimEnd trimStart)

/-! ### Missing parentheses -/

namespace Cursor

variable {cur : Cursor} {fault : Fault}

theorem lexeme?_cause_ne (h : cur.lexeme? = .error fault) : fault.cause ≠ .missingParenthesis := by
  unfold lexeme? fail at h
  split at h
  · cases h
  · split at h <;> cases h
    exact nofun
  · cases h
  · cases h
  · split at h
    · split at h <;> cases h
      exact nofun
    · cases h

theorem skipTrivia_cause_ne (h : cur.skipTrivia = .error fault) :
    fault.cause ≠ .missingParenthesis := by
  fun_induction skipTrivia cur with
  | case1 cur fault' hsep =>
    cases h
    unfold separator? fail at hsep
    split at hsep
    · split at hsep <;> cases hsep
      rintro ⟨⟩
    · cases hsep
    · cases hsep
  | case2 => cases h
  | case3 cur between hsep ih => exact ih h

theorem upTo_cause_ne {stops : List Char} {depth : Nat}
    (h : cur.upTo stops depth = .error fault) : fault.cause ≠ .missingParenthesis := by
  fun_induction upTo stops depth cur with
  | case1 depth cur fault' hlexeme =>
    cases h
    exact lexeme?_cause_ne hlexeme
  | case2 => cases h
  | case3 => cases h
  | case4 depth cur lexeme next hlexeme hstop fault' htail ih =>
    cases h
    exact ih htail
  | case5 => cases h

theorem closeBlock_cause_ne {brace depth : Nat} (h : cur.closeBlock brace depth = .error fault) :
    fault.cause ≠ .missingParenthesis := by
  fun_induction closeBlock brace depth cur with
  | case1 => cases h
  | case2 cur outer fault' hfront =>
    cases h
    exact upTo_cause_ne hfront
  | case3 cur outer front offset c rest hfront fault' htail ih =>
    cases h
    exact ih htail
  | case4 => cases h
  | case5 =>
    cases h
    rintro ⟨⟩

theorem block_cause_ne (h : cur.block = .error fault) : fault.cause ≠ .missingParenthesis := by
  unfold block fail at h
  split at h
  · simp only [bind, Except.bind, pure, Except.pure] at h
    split at h
    · rename_i hclose
      cases h
      exact closeBlock_cause_ne hclose
    · cases h
  · cases h
    exact nofun

end Cursor

/-- A value that lacks a parenthesis stands behind the colon of its declaration. -/
theorem Declaration.behind_colon_of_missing {statement : Cursor} {fault : Fault}
    (h : ofStatement? statement = .error fault) (hcause : fault.cause = .missingParenthesis) :
    ∃ front cur, Reads statement (front ++ [':']) cur ∧ cur.Reports [] fault := by
  simp only [ofStatement?, Cursor.fail, bind, Except.bind, pure, Except.pure] at h
  split at h
  · rename_i hproperty
    cases h
    unfold readProperty Cursor.fail at hproperty
    dsimp only at hproperty
    split at hproperty <;> cases hproperty
    cases hcause
  · rename_i found hproperty
    split at h
    · rename_i hskip
      cases h
      exact absurd hcause (Cursor.skipTrivia_cause_ne hskip)
    · rename_i colon hskip
      split at h
      · cases h
        cases hcause
      · rename_i cur hcolon
        obtain ⟨front, hfront⟩ := reads_value hproperty hskip (Cursor.reads_char? hcolon)
        split at h
        · rename_i hvalue
          cases h
          obtain ⟨mark, hmark⟩ := cutImportant_append_eq cur.rest
          exact ⟨front, cur, hfront, readValue_reports hvalue hmark.symm []⟩
        · cases h

namespace Sheet

variable {state : State} {cur named : Cursor} {fault : Fault}

theorem readRule_cause_ne (h : readRule state cur = .error fault) :
    fault.cause ≠ .missingParenthesis := by
  unfold readRule at h
  split at h
  · cases h
  · split at h
    · unfold readAtRule Cursor.fail at h
      split at h
      · cases h
        exact nofun
      · simp only [bind, Except.bind, pure, Except.pure] at h
        split at h
        · rename_i hprelude
          cases h
          exact Cursor.upTo_cause_ne hprelude
        · split at h <;> cases h
    · unfold readSelector Cursor.fail at h
      simp only [bind, Except.bind, pure, Except.pure] at h
      split at h
      · rename_i hselector
        cases h
        exact Cursor.upTo_cause_ne hselector
      · split at h <;> cases h
        exact nofun

/-- Only a statement that is read as a declaration lacks a parenthesis. -/
theorem exists_declaration_of_readStatement (h : readStatement state cur = .error fault)
    (hcause : fault.cause = .missingParenthesis) :
    ∃ statement next, cur.upTo stops 0 = .ok (statement, next) ∧
      Declaration.ofStatement? ⟨cur.offset, statement⟩ = .error fault := by
  unfold readStatement at h
  simp only [bind, Except.bind, pure, Except.pure] at h
  split at h
  · rename_i hstatement
    cases h
    exact absurd hcause (Cursor.upTo_cause_ne hstatement)
  · rename_i found hstatement
    obtain ⟨statement, stop⟩ := found
    dsimp only at h
    split at h
    · split at h
      · rename_i hblock
        cases h
        exact absurd hcause (Cursor.block_cause_ne hblock)
      · cases h
    · split at h
      · cases h
      · split at h
        · rename_i hdeclaration
          cases h
          exact ⟨statement, stop, hstatement, hdeclaration⟩
        · cases h

theorem exists_declaration_of_advance (h : advance state cur = .error fault)
    (hcause : fault.cause = .missingParenthesis) :
    ∃ statement next, cur.upTo stops 0 = .ok (statement, next) ∧
      Declaration.ofStatement? ⟨cur.offset, statement⟩ = .error fault := by
  unfold advance Cursor.fail at h
  split at h
  · split at h <;> cases h
    cases hcause
  · split at h <;> cases h
    cases hcause
  · cases h
  · split at h
    · rename_i hread
      cases h
      split at hread
      · exact absurd hcause (readRule_cause_ne hread)
      · exact exists_declaration_of_readStatement hread hcause
    · cases h

end Sheet

/-! ### Faults in a stylesheet -/

/-- What a fault names is seen in a text at the place at which the fault points. -/
def Fault.SeenIn (text : String) (fault : Fault) : Prop :=
  ∃ before ahead, text.toList = before ++ ahead ∧ fault.offset = size before ∧
    ReportedAt before ahead fault fault.message

/-- A fault lies in a statement of a text that cannot be read as a declaration: behind its
beginning, and not behind its end. -/
def Fault.InStatement (text : String) (fault : Fault) : Prop :=
  ∃ before statement behind, text.toList = before ++ statement ++ behind ∧
    Declaration.ofStatement? ⟨size before, statement⟩ = .error fault ∧
    size before < fault.offset ∧ fault.offset ≤ size (before ++ statement)

theorem Cursor.Reports.seenIn {cur : Cursor} {source : String} {part behind : List Char}
    {fault : Fault} (h : (Cursor.mk cur.offset part).Reports behind fault)
    (hin : cur.In source) (hrest : cur.rest = part ++ behind) : fault.SeenIn source := by
  obtain ⟨taken, place, ⟨hpart, hplace⟩, hoffset, hreported⟩ := h
  obtain ⟨front, hfront, hcur⟩ := hin
  dsimp only [Cursor.start] at hfront hcur hpart hplace
  refine ⟨front ++ taken, place.rest ++ behind, ?_, ?_, hreported.behind front⟩
  · rw [hfront, hrest, hpart]
    simp only [List.append_assoc]
  · rw [hoffset, hplace, hcur, Text.size_append, Nat.zero_add]

/-- A statement that lacks a parenthesis reports it behind its beginning and not behind its end. -/
theorem Fault.inStatement {source : String} {cur next : Cursor} {statement : List Char}
    {fault : Fault} (hin : cur.In source) (hreads : Reads cur statement next)
    (h : Declaration.ofStatement? ⟨cur.offset, statement⟩ = .error fault)
    (hcause : fault.cause = .missingParenthesis) : fault.InStatement source := by
  obtain ⟨front, begun, hbegun, taken, place, hplace, hoffset, -⟩ :=
    Declaration.behind_colon_of_missing h hcause
  obtain ⟨before, hbefore, hcur⟩ := hin
  have hreached := hbegun.trans hplace
  have hsize := congrArg size hreached.rest_eq
  have hbehind := hreached.offset_eq
  dsimp only [Cursor.start] at hbefore hcur hsize hbehind
  rw [Nat.zero_add] at hcur
  refine ⟨before, statement, next.rest, ?_, hcur ▸ h, ?_, ?_⟩
  · rw [hbefore, hreads.rest_eq, List.append_assoc]
  · rw [hoffset, ← hcur]
    exact hreached.offset_lt (by simp)
  · rw [hoffset, hbehind, hcur]
    simp only [Text.size_append] at hsize ⊢
    omega

namespace Sheet

variable {state : State} {cur : Cursor} {fault : Fault}

theorem Follows.seenIn {text : String} (h : Follows text state cur)
    (hstep : step state cur = .error fault) :
    fault.SeenIn text ∧ (fault.cause = .missingParenthesis → fault.InStatement text) := by
  refine ⟨(h.refused hstep).seenIn ⟨[], .refl _⟩ (List.append_nil _).symm, fun hcause => ?_⟩
  unfold step at hstep
  split at hstep
  · rename_i hskip
    cases hstep
    exact absurd hcause (Cursor.skipTrivia_cause_ne hskip)
  · rename_i begun hskip
    obtain ⟨statement, next, hstatement, hdeclaration⟩ := exists_declaration_of_advance hstep hcause
    exact Fault.inStatement (h.skipTrivia hskip).inSource (Cursor.reads_upTo hstatement)
      hdeclaration hcause

/-- A stylesheet that is not read is refused at a place where the fault is seen. A missing
parenthesis is reported inside the declaration that lacks it. -/
theorem refused_seenIn {text : String} (h : ofText? text = .error fault) :
    fault.SeenIn text ∧ (fault.cause = .missingParenthesis → fault.InStatement text) :=
  Pushdown.of_run_error (Follows text) Follows.onward Follows.seenIn
    ⟨⟨[], .refl _⟩, List.forall_mem_nil _⟩ h

end Sheet

/-! ### Faults in custom properties -/

/-- The text of a custom property stands in its source, inside the span of its declaration. -/
theorem Declaration.ReadFrom.raw_inside {source : String} {declaration : Declaration} {raw : Raw}
    (h : declaration.ReadFrom source) (hraw : declaration.value = .raw raw) :
    isCustomProperty declaration.property = true ∧ raw.span.slice? source = some raw.text ∧
      (∃ behind, (Cursor.mk raw.span.start (raw.text.toList ++ behind)).In source) ∧
      declaration.span.start < raw.span.start ∧
      raw.span.start + size raw.text.toList ≤ declaration.span.stop := by
  obtain ⟨cur, statement, next, hin, hreads, hread⟩ := h
  obtain ⟨named, colon, begun, hproperty, hskip, hcolon, hvalue, -, hspan⟩ :=
    Declaration.ofStatement?_eq_ok hread
  obtain ⟨front, hbegun⟩ := Declaration.reads_value hproperty hskip hcolon
  rw [hraw] at hvalue
  obtain ⟨hcustom, leading, htext, hrawSpan⟩ := Declaration.readValue_eq_raw hvalue
  have hstart : raw.span.start = begun.offset + size leading := by rw [hrawSpan]
  obtain ⟨mark, hmark⟩ := cutImportant_append_eq begun.rest
  obtain ⟨blanks, hblanks, -⟩ := Text.trimEnd_append (cutImportant begun.rest).1
  refine ⟨hcustom, (Declaration.placed hin hreads hread).1.2 raw hraw,
    ⟨blanks ++ mark ++ next.rest, ?_⟩, ?_, ?_⟩
  · have hstatement : statement = front ++ [':'] ++ begun.rest := hbegun.rest_eq
    rw [← hmark, ← hblanks, htext] at hstatement
    have hoffset := hbegun.offset_eq
    have hvalue : Reads cur (front ++ [':'] ++ leading)
        ⟨raw.span.start, raw.text.toList ++ (blanks ++ mark ++ next.rest)⟩ := by
      refine ⟨?_, ?_⟩
      · rw [hreads.rest_eq, hstatement]
        simp
      · rw [hstart, hoffset, Text.size_append _ leading, Nat.add_assoc]
    exact hin.reads hvalue
  · rw [hspan, hstart]
    exact Nat.lt_of_lt_of_le (hbegun.offset_lt (by simp)) (Nat.le_add_right _ _)
  · have hstop := Declaration.value_le_stop hbegun
    rw [htext, Text.size_append] at hstop
    rw [hspan, hstart]
    dsimp only at hstop ⊢
    omega

/-- A fault in the text of a custom property is seen in the source where that text begins, moved by
the offset at which it does. -/
theorem Declaration.ReadFrom.raw_refused {source : String} {declaration : Declaration} {raw : Raw}
    {fault : Fault} (h : declaration.ReadFrom source) (hraw : declaration.value = .raw raw)
    (hfault : Component.ofText? raw.text = .error fault) :
    (fault.shift raw.span.start).SeenIn source ∧
      declaration.span.start < (fault.shift raw.span.start).offset ∧
      (fault.shift raw.span.start).offset ≤ declaration.span.stop := by
  obtain ⟨-, -, ⟨behind, hin⟩, hstart, hstop⟩ := h.raw_inside hraw
  have hmoved : Component.readAll ⟨raw.span.start, raw.text.toList⟩ =
      .error (fault.shift raw.span.start) := by
    rw [Component.readAll_at, ← Component.ofText?, hfault]
    rfl
  have hreports := Component.readAll_reports hmoved behind
  refine ⟨Cursor.Reports.seenIn hreports hin rfl, ?_, ?_⟩
  · exact Nat.lt_of_lt_of_le hstart (Nat.le_add_left ..)
  · obtain ⟨taken, place, ⟨hrest, hplace⟩, hoffset, -⟩ := hreports
    have hsize := congrArg size hrest
    rw [Text.size_append] at hsize
    dsimp only at hsize hplace
    rw [hoffset, hplace]
    omega

/-! ### Families that cannot be read -/

section MapM

variable {α β ε : Type} {f : α → Except ε β} {as : List α}

theorem exists_of_mapM_eq_error {e : ε} (h : as.mapM f = .error e) : ∃ a ∈ as, f a = .error e := by
  induction as with
  | nil => cases h
  | cons a as ih =>
    simp only [List.mapM_cons, bind, Except.bind, pure, Except.pure] at h
    split at h
    · rename_i hfirst
      cases h
      exact ⟨a, List.mem_cons_self, hfirst⟩
    · split at h
      · rename_i hothers
        cases h
        obtain ⟨b, hmem, hb⟩ := ih hothers
        exact ⟨b, List.mem_cons_of_mem a hmem, hb⟩
      · cases h

end MapM

/-- The families of a declaration are not read only if they stand in the text of a custom
property. -/
theorem NamedFamilies.ofDeclaration?_eq_error {declaration : Declaration} {fault : Fault}
    (h : ofDeclaration? declaration = .error fault) :
    ∃ raw, declaration.value = .raw raw ∧ Component.ofText? raw.text = .error fault := by
  unfold ofDeclaration? at h
  split at h
  · cases h
  · rename_i raw hraw
    simp only [bind, Except.bind, pure, Except.pure] at h
    split at h
    · rename_i hcomponents
      cases h
      exact ⟨raw, hraw, hcomponents⟩
    · cases h

variable {source : String} {nodes : List Node} {declared : Names} {fault : Fault}

/-- No `@font-face` rule of a stylesheet names families that cannot be read. -/
theorem declaredNames_ne_error (hread : Sheet.ofText? source = .ok nodes) :
    declaredNames nodes ≠ .error fault := by
  intro h
  simp only [declaredNames, bind, Except.bind, pure, Except.pure] at h
  split at h
  · rename_i hlists
    obtain ⟨declaration, hmem, hfamilies⟩ := exists_of_mapM_eq_error hlists
    obtain ⟨raw, hraw, -⟩ := NamedFamilies.ofDeclaration?_eq_error hfamilies
    have hfrom := (Sheet.declarations_of_ofText? hread).readFrom declaration
      (mem_declarationsIn_of_namings hmem)
    obtain ⟨hcustom, -⟩ := hfrom.raw_inside hraw
    obtain ⟨visit, -, hnaming⟩ := List.mem_filterMap.mp hmem
    have hproperty := (Option.filter_eq_some_iff.mp hnaming).2
    rw [Bool.and_eq_true, beq_iff_eq] at hproperty
    rw [hproperty.2] at hcustom
    exact absurd hcustom (by decide +kernel)
  · cases h

/-- A custom property can use a family only if custom properties count. -/
theorem Declaration.CanUse.customProperties {customProperties : Bool} {declaration : Declaration}
    (h : declaration.CanUse customProperties nodes)
    (hcustom : isCustomProperty declaration.property = true) : customProperties = true := by
  obtain ⟨-, hproperty | hproperty | ⟨hon, -⟩⟩ := h
  · rw [hproperty] at hcustom
    exact absurd hcustom (by decide +kernel)
  · rw [hproperty] at hcustom
    exact absurd hcustom (by decide +kernel)
  · exact hon

/-- A search for uses fails in the text of a custom property. -/
theorem exists_raw_of_familyUses {customProperties : Bool}
    (hread : Sheet.ofText? source = .ok nodes)
    (h : familyUses nodes declared customProperties = .error fault) :
    ∃ (declaration : Declaration) (raw : Raw), declaration.CanUse customProperties nodes ∧
      declaration.ReadFrom source ∧ declaration.value = .raw raw ∧
      Component.ofText? raw.text = .error fault := by
  simp only [familyUses, bind, Except.bind, pure, Except.pure] at h
  split at h
  · rename_i hlists
    cases h
    obtain ⟨declaration, hmem, hfamilies⟩ := exists_of_mapM_eq_error hlists
    obtain ⟨raw, hraw, hfault⟩ := NamedFamilies.ofDeclaration?_eq_error hfamilies
    have hfrom := (Sheet.declarations_of_ofText? hread).readFrom declaration
      (mem_declarationsIn_of_usings hmem)
    exact ⟨declaration, raw, mem_usings_iff.mp hmem, hfrom, hraw, hfault⟩
  · cases h

end WebFonts.Css

/-! ### Revisions -/

namespace WebFonts

open Css (Component Declaration Fault Raw)

/-- No lookup reports a parse fault. -/
theorem Reply.fault?_ne_parse (reply : Reply) (fault : Fault) :
    reply.fault? ≠ some (.parse fault) := by
  obtain ⟨use, answer⟩ := reply
  cases answer <;> exact nofun

namespace Reviser

variable {reviser : Reviser} {lookups : Lookups} {options : Options} {css : String}
  {registry : Registry} {fault : Fault}

/-- A parse fault of a revision is one of the search for uses. -/
theorem parse_fault_iff :
    (reviser.reviseBy lookups options css registry).2 = .error (.parse fault) ↔
      usesOf? css options.customProperties = .error fault := by
  unfold reviseBy
  constructor
  · intro h
    split at h
    · rename_i huses
      cases h
      exact huses
    · cases h
    · split at h
      · generalize hrun : Draft.enterAll _ _ _ (Draft.ofSource css registry) = run at h
        obtain ⟨draft, outcome⟩ := run
        cases outcome with
        | ok done => cases h
        | error found =>
          cases h
          obtain ⟨-, reply, -, -, -, ⟨hfault, -⟩ | ⟨refusal, hrefusal⟩⟩ :=
            Draft.enterAll_eq_error hrun
          · exact absurd hfault (reply.fault?_ne_parse fault)
          · cases hrefusal
      · cases h
  · intro huses
    rw [huses]

/-- **Where a parse fault of a revision points.** Either the stylesheet cannot be read. The fault is
then seen in it where it points, and inside the declaration that lacks a parenthesis if it is of
this kind. Or custom properties count, and the families of one cannot be read. The fault then points
into the text of that property: in the stylesheet it is seen further on by the offset of this text,
inside the declaration of the property. -/
theorem parse_fault_located
    (h : (reviser.reviseBy lookups options css registry).2 = .error (.parse fault)) :
    (Css.Sheet.ofText? css = .error fault ∧ fault.SeenIn css ∧
      (fault.cause = .missingParenthesis → fault.InStatement css)) ∨
    ∃ (nodes : List Css.Node) (declaration : Declaration) (raw : Raw),
      options.customProperties = true ∧ Css.Sheet.ofText? css = .ok nodes ∧
      declaration.CanUse true nodes ∧ declaration.value = .raw raw ∧
      raw.span.slice? css = some raw.text ∧ Component.ofText? raw.text = .error fault ∧
      0 < raw.span.start ∧
      (fault.shift raw.span.start).SeenIn css ∧
      declaration.span.start < (fault.shift raw.span.start).offset ∧
      (fault.shift raw.span.start).offset ≤ declaration.span.stop := by
  have huses := parse_fault_iff.mp h
  simp only [usesOf?, bind, Except.bind] at huses
  split at huses
  · rename_i hread
    cases huses
    exact .inl ⟨hread, Css.Sheet.refused_seenIn hread⟩
  · rename_i nodes hread
    split at huses
    · rename_i hdeclared
      exact absurd hdeclared (Css.declaredNames_ne_error hread)
    · obtain ⟨declaration, raw, hcan, hfrom, hraw, hfault⟩ :=
        Css.exists_raw_of_familyUses hread huses
      obtain ⟨hcustom, hslice, -, hstart, -⟩ := hfrom.raw_inside hraw
      have hon := hcan.customProperties hcustom
      exact .inr ⟨nodes, declaration, raw, hon, hread, hon ▸ hcan, hraw, hslice, hfault,
        Nat.zero_lt_of_lt hstart, hfrom.raw_refused hraw hfault⟩

/-- A custom property with a string that nothing closes, if the address in front of it ends at the
first parenthesis. -/
theorem usesOf?_of_custom_property :
    usesOf? "a\x7b--f:url(x\"y)\"z)\x7d" true = .error ⟨.unterminatedString, 8⟩ := by
  have hrun : (usesOf? "a\x7b--f:url(x\"y)\"z)\x7d" true).map (fun _ => ()) =
      .error ⟨.unterminatedString, 8⟩ := by
    decide +kernel
  generalize usesOf? _ _ = outcome at hrun ⊢
  cases outcome with
  | ok uses => cases hrun
  | error fault => exact congrArg _ (Except.error.inj hrun)

/-- The stylesheet can be read, and the quote is seen in it behind the offset that is reported. -/
theorem parse_fault_located_of_custom_property :
    let reviser : Reviser := ⟨fun _ _ => .unknown, ⟨.passthrough, fun _ _ => true⟩, true⟩
    let css := "a\x7b--f:url(x\"y)\"z)\x7d"
    let fault : Fault := ⟨.unterminatedString, 8⟩
    (reviser.revise ⟨"a.css", true, true, none, none⟩ css .empty).2 = .error (.parse fault) ∧
      ∃ raw : Raw, raw.span.slice? css = some raw.text ∧ 0 < raw.span.start ∧
        (fault.shift raw.span.start).SeenIn css := by
  intro reviser css fault
  have hread : (Css.Sheet.ofText? css).map (fun _ => ()) = .ok () := by
    decide +kernel
  have hrun : (reviser.revise ⟨"a.css", true, true, none, none⟩ css .empty).2 =
      .error (.parse fault) :=
    parse_fault_iff.mpr usesOf?_of_custom_property
  refine ⟨hrun, ?_⟩
  rcases parse_fault_located hrun with
    ⟨hrefused, -⟩ | ⟨nodes, declaration, raw, -, -, -, -, hslice, -, hstart, hseen, -⟩
  · rw [hrefused] at hread
    cases hread
  · exact ⟨raw, hslice, hstart, hseen⟩

/-- A fault in a custom property points at something else in the stylesheet. -/
theorem parse_fault_misplaced :
    ¬ ∀ (reviser : Reviser) (options : Options) (css : String) (registry : Registry)
      (fault : Fault),
      (reviser.revise options css registry).2 = .error (.parse fault) → fault.SeenIn css := by
  intro h
  obtain ⟨before, ahead, htext, hsize, hreported⟩ :=
    h ⟨fun _ _ => .unknown, ⟨.passthrough, fun _ _ => true⟩, true⟩
      ⟨"a.css", true, true, none, none⟩ _ .empty _ (parse_fault_iff.mpr usesOf?_of_custom_property)
  -- no quote stands at the offset, but the last letter of "url"
  have hletter : ahead.head? = some 'l' := by
    have hcut := Text.cut_size_append before ahead
    rw [← htext, ← hsize] at hcut
    have hback : (Text.cut 8 "a\x7b--f:url(x\"y)\"z)\x7d".toList).2.head? = some 'l' := by
      decide +kernel
    rwa [hcut] at hback
  cases hreported with
  | string hquote hkind =>
    rw [hquote] at hletter
    rcases hkind with rfl | rfl <;> cases hletter

end Reviser

end WebFonts
