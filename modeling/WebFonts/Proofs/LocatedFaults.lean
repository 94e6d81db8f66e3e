import WebFonts.Proofs.Tiling

/-!
# Where faults point

A stylesheet that is not read is refused with a fault at the place of which the fault speaks: a
string or a comment that is not closed begins there, a block that is not closed opens there, and so
on (`ReportedAt`). `Sheet.fault_reported` says this of every text.

Each reader is followed to its failures. What it reports holds of the text at its own cursor
(`Cursor.Reports`), and of a longer text if the reader was given a part only, as for a declaration
and its value. The machines carry this from step to step (`Pushdown.of_run_error`); only a block
that is not closed is reported behind the cursor, so that each open block remembers its brace
(`Sheet.Follows`).
-/

namespace WebFonts.Css

open Cursor (Reads)
open Text (size trimEnd isBoundary)

/-! ### Reports -/

/-- What is wrong at a place of a text, with the text in front of the place and the text ahead, and
the wording under which it is reported. -/
inductive ReportedAt (before ahead : List Char) : Fault → String → Prop
  | string {offset : Nat} {quote : Char} {rest : List Char} (hahead : ahead = quote :: rest)
      (hquote : quote = '"' ∨ quote = '\'') :
      ReportedAt before ahead ⟨.unterminatedString, offset⟩
        s!"Unterminated string starting at byte {offset}"
  | comment {offset : Nat} {rest : List Char} (hahead : ahead = '/' :: '*' :: rest) :
      ReportedAt before ahead ⟨.unterminatedComment, offset⟩
        s!"Unterminated comment starting at byte {offset}"
  | block {offset : Nat} {rest : List Char} (hahead : ahead = '{' :: rest) :
      ReportedAt before ahead ⟨.unterminatedBlock, offset⟩
        s!"Unterminated block starting at byte {offset}"
  | brace {offset : Nat} {rest : List Char} (hahead : ahead = '}' :: rest) :
      ReportedAt before ahead ⟨.strayBrace, offset⟩ s!"Unexpected '\x7d' at byte {offset}"
  | property {offset : Nat} :
      ReportedAt before ahead ⟨.missingProperty, offset⟩
        s!"Invalid declaration at byte {offset}: expected a property name"
  | colon {offset : Nat} :
      ReportedAt before ahead ⟨.missingColon, offset⟩
        s!"Invalid declaration at byte {offset}: expected ':' after property name"
  | atName {offset : Nat} {front : List Char} (hbefore : before = front ++ ['@']) :
      ReportedAt before ahead ⟨.missingAtName, offset⟩
        s!"Parse error at byte {offset}: expected at-rule name"
  | selector {offset : Nat}
      (hahead : ahead = [] ∨ ∃ rest, ahead = ';' :: rest ∨ ahead = '}' :: rest) :
      ReportedAt before ahead ⟨.missingBlock, offset⟩
        s!"Parse error at byte {offset}: expected '\x7b' after selector"
  | parenthesis {offset : Nat} :
      ReportedAt before ahead ⟨.missingParenthesis, offset⟩
        s!"Parse error at byte {offset}: expected ')'"

theorem ReportedAt.behind {before ahead : List Char} {fault : Fault} {message : String}
    (h : ReportedAt before ahead fault message) (front : List Char) :
    ReportedAt (front ++ before) ahead fault message := by
  cases h with
  | string hahead hquote => exact .string hahead hquote
  | comment hahead => exact .comment hahead
  | block hahead => exact .block hahead
  | brace hahead => exact .brace hahead
  | property => exact .property
  | colon => exact .colon
  | atName hbefore => exact .atName (by rw [hbefore, List.append_assoc])
  | selector hahead => exact .selector hahead
  | parenthesis => exact .parenthesis

/-- A fault is reported somewhere ahead of a cursor. The text at the cursor may be a part of the
text ahead, which then goes on with `behind`. -/
def Cursor.Reports (cur : Cursor) (behind : List Char) (fault : Fault) : Prop :=
  ∃ taken next, Reads cur taken next ∧ fault.offset = next.offset ∧
    ReportedAt taken (next.rest ++ behind) fault fault.message

namespace Cursor

variable {cur next : Cursor} {behind : List Char} {fault : Fault}

theorem reports_here {cause : Cause}
    (h : ReportedAt [] (cur.rest ++ behind) ⟨cause, cur.offset⟩
      (Fault.message ⟨cause, cur.offset⟩)) :
    cur.Reports behind ⟨cause, cur.offset⟩ :=
  ⟨[], cur, .refl cur, rfl, h⟩

theorem Reports.of_reads (h : next.Reports behind fault) {taken : List Char}
    (hreads : Reads cur taken next) : cur.Reports behind fault := by
  obtain ⟨passed, place, hplace, hoffset, hreported⟩ := h
  exact ⟨taken ++ passed, place, hreads.trans hplace, hoffset, hreported.behind taken⟩

/-- What is reported about a part of the text ahead is reported about all of it. -/
theorem Reports.of_part {part rest : List Char}
    (h : (Cursor.mk cur.offset part).Reports (rest ++ behind) fault)
    (hrest : cur.rest = part ++ rest) : cur.Reports behind fault := by
  obtain ⟨taken, place, hplace, hoffset, hreported⟩ := h
  obtain ⟨offset, text⟩ := cur
  dsimp only at hrest
  subst hrest
  refine ⟨taken, ⟨place.offset, place.rest ++ rest⟩, hplace.append_rest rest, hoffset, ?_⟩
  rwa [List.append_assoc]

/-! ### Lexemes, trivia and extents -/

theorem lexeme?_reports (h : cur.lexeme? = .error fault) (behind : List Char) :
    cur.Reports behind fault := by
  unfold lexeme? fail at h
  split at h
  · cases h
  · rename_i rest hrest
    split at h <;> cases h
    exact reports_here (.comment (by rw [hrest]; rfl))
  · cases h
  · cases h
  · rename_i c rest _ _ _ hrest
    split at h
    · rename_i hquote
      split at h <;> cases h
      refine reports_here (.string (by rw [hrest]; rfl) ?_)
      simpa [isQuote] using hquote
    · cases h

theorem separator?_reports (h : cur.separator? = .error fault) (behind : List Char) :
    cur.Reports behind fault := by
  unfold separator? fail at h
  split at h
  · rename_i rest hrest
    split at h <;> cases h
    exact reports_here (.comment (by rw [hrest]; rfl))
  · cases h
  · cases h

theorem skipTrivia_reports (h : cur.skipTrivia = .error fault) (behind : List Char) :
    cur.Reports behind fault := by
  fun_induction skipTrivia cur with
  | case1 cur fault' hsep =>
    cases h
    exact separator?_reports hsep behind
  | case2 => cases h
  | case3 cur between hsep ih =>
    obtain ⟨separator, hreads, -⟩ := reads_separator? hsep
    exact (ih h).of_reads hreads

theorem upTo_reports {stops : List Char} {depth : Nat} (h : cur.upTo stops depth = .error fault)
    (behind : List Char) : cur.Reports behind fault := by
  fun_induction upTo stops depth cur with
  | case1 depth cur fault' hlexeme =>
    cases h
    exact lexeme?_reports hlexeme behind
  | case2 => cases h
  | case3 => cases h
  | case4 depth cur lexeme next hlexeme hstop fault' htail ih =>
    cases h
    exact (ih htail).of_reads (reads_lexeme? hlexeme)
  | case5 => cases h

/-- Blocks that are not closed are reported at the brace that was given for them. -/
theorem closeBlock_reports {brace depth : Nat} (h : cur.closeBlock brace depth = .error fault)
    (behind : List Char) : fault = ⟨.unterminatedBlock, brace⟩ ∨ cur.Reports behind fault := by
  fun_induction closeBlock brace depth cur with
  | case1 => cases h
  | case2 cur outer fault' hfront =>
    cases h
    exact .inr (upTo_reports hfront behind)
  | case3 cur outer front offset c rest hfront fault' htail ih =>
    cases h
    have hbrace : Reads ⟨offset, c :: rest⟩ [c] ⟨offset + size [c], rest⟩ := ⟨rfl, rfl⟩
    exact (ih htail).imp_right fun hreports =>
      (hreports.of_reads hbrace).of_reads (reads_upTo hfront)
  | case4 => cases h
  | case5 =>
    cases h
    exact .inl rfl

theorem block_reports (hbrace : cur.rest.head? = some '{') (h : cur.block = .error fault)
    (behind : List Char) : cur.Reports behind fault := by
  obtain ⟨rest, hrest⟩ : ∃ rest, cur.rest = '{' :: rest := List.head?_eq_some_iff.mp hbrace
  unfold block at h
  rw [hrest] at h
  simp only [bind, Except.bind, pure, Except.pure] at h
  split at h
  · rename_i hclose
    cases h
    rcases closeBlock_reports hclose behind with rfl | hreports
    · exact reports_here (.block (by rw [hrest]; rfl))
    · exact hreports.of_reads (reads_pass (show cur.rest = ['{'] ++ rest from hrest))
  · cases h

end Cursor

/-! ### Machines -/

namespace Pushdown

variable {σ α : Type} {machine : Pushdown σ α}

/-- What every step keeps up to the one that fails tells of the fault with which a run ends. -/
theorem of_run_error (Follows : σ → Cursor → Prop) {P : Fault → Prop}
    (honward : ∀ {state state' : σ} {cur next : Cursor}, Follows state cur →
      machine.step state cur = .ok (.onward state' next) → Follows state' next)
    (hfault : ∀ {state : σ} {cur : Cursor} {fault : Fault}, Follows state cur →
      machine.step state cur = .error fault → P fault)
    {state : σ} {cur : Cursor} {fault : Fault} (h : Follows state cur)
    (hrun : machine.run state cur = .error fault) : P fault := by
  fun_induction run machine state cur with
  | case1 state cur fault' hstep =>
    cases hrun
    exact hfault h hstep
  | case2 => cases hrun
  | case3 state cur state' next hstep ih => exact ih (honward h hstep) hrun

end Pushdown

/-! ### Values and declarations -/

namespace Component

variable {state state' : State} {cur next : Cursor} {fault : Fault}

theorem piece?_reports (h : cur.piece? = .error fault) (behind : List Char) :
    cur.Reports behind fault := by
  unfold Cursor.piece? Cursor.fail at h
  split at h
  · cases h
  · rename_i c rest hrest
    split at h
    · rename_i hquote
      split at h <;> cases h
      refine Cursor.reports_here (.string (by rw [hrest]; rfl) ?_)
      simpa [isQuote] using hquote
    · split at h <;> cases h

theorem reads_step (h : step state cur = .ok (.onward state' next)) :
    ∃ taken, Reads cur taken next := by
  unfold step Cursor.fail at h
  split at h
  · cases h
  · rename_i begun hskip
    obtain ⟨trivia, htrivia⟩ := Cursor.reads_skipTrivia hskip
    split at h
    · cases h
    · split at h <;> cases h
    · rename_i hpiece
      cases h
      obtain ⟨taken, htaken, -⟩ := Cursor.reads_piece? hpiece
      exact ⟨_, htrivia.trans htaken⟩

theorem step_reports (h : step state cur = .error fault) (behind : List Char) :
    cur.Reports behind fault := by
  unfold step at h
  split at h
  · rename_i hskip
    cases h
    exact Cursor.skipTrivia_reports hskip behind
  · rename_i begun hskip
    obtain ⟨trivia, htrivia⟩ := Cursor.reads_skipTrivia hskip
    refine Cursor.Reports.of_reads ?_ htrivia
    split at h
    · rename_i hpiece
      cases h
      exact piece?_reports hpiece behind
    · split at h
      · cases h
      · cases h
        exact Cursor.reports_here .parenthesis
    · cases h

theorem readAll_reports (h : readAll cur = .error fault) (behind : List Char) :
    cur.Reports behind fault := by
  refine Pushdown.of_run_error (fun _ next => ∃ taken, Reads cur taken next)
    (fun hfollows hstep => ?_) (fun hfollows hstep => ?_) ⟨[], .refl cur⟩ h
  · obtain ⟨taken, hreads⟩ := hfollows
    obtain ⟨passed, hpassed⟩ := reads_step hstep
    exact ⟨_, hreads.trans hpassed⟩
  · obtain ⟨taken, hreads⟩ := hfollows
    exact (step_reports hstep behind).of_reads hreads

end Component

namespace Declaration

variable {statement cur : Cursor} {fault : Fault}

theorem readValue_reports {property : String} {text rest : List Char}
    (h : readValue property cur text = .error fault) (hrest : cur.rest = text ++ rest)
    (behind : List Char) : cur.Reports behind fault := by
  unfold readValue at h
  dsimp only at h
  split at h
  · cases h
  · obtain ⟨trailing, htrailing, -⟩ := Text.trimEnd_append text
    cases hcomponents : Component.readAll ⟨cur.offset, trimEnd text⟩ with
    | ok components => rw [hcomponents] at h; cases h
    | error found =>
      rw [hcomponents] at h
      cases h
      exact (Component.readAll_reports hcomponents _).of_part
        (by rw [hrest, ← List.append_assoc, htrailing])

theorem ofStatement?_reports (h : ofStatement? statement = .error fault) (behind : List Char) :
    statement.Reports behind fault := by
  simp only [ofStatement?, Cursor.fail, bind, Except.bind, pure, Except.pure] at h
  split at h
  · rename_i hproperty
    cases h
    unfold readProperty Cursor.fail at hproperty
    dsimp only at hproperty
    split at hproperty <;> cases hproperty
    exact Cursor.reports_here .property
  · rename_i found hproperty
    obtain ⟨name, hname⟩ := reads_readProperty hproperty
    refine Cursor.Reports.of_reads ?_ hname
    split at h
    · rename_i hskip
      cases h
      exact Cursor.skipTrivia_reports hskip behind
    · rename_i colon hskip
      obtain ⟨gap, hgap⟩ := Cursor.reads_skipTrivia hskip
      refine Cursor.Reports.of_reads ?_ hgap
      split at h
      · cases h
        exact Cursor.reports_here .colon
      · rename_i cur hcolon
        refine Cursor.Reports.of_reads ?_ (Cursor.reads_char? hcolon)
        split at h
        · rename_i hvalue
          cases h
          obtain ⟨mark, hmark⟩ := cutImportant_append_eq cur.rest
          exact readValue_reports hvalue hmark.symm behind
        · cases h

end Declaration

/-! ### Rules and statements -/

namespace Sheet

variable {state state' : State} {cur next : Cursor} {fault : Fault}

theorem readAtRule_reports {named : Cursor} (hat : cur.char? '@' = some named)
    (h : readAtRule state cur named = .error fault) : cur.Reports [] fault := by
  have hnamed := Cursor.reads_char? hat
  unfold readAtRule Cursor.fail at h
  split at h
  · cases h
    exact ⟨['@'], named, hnamed, rfl, .atName (List.nil_append _).symm⟩
  · rename_i word after hword
    simp only [bind, Except.bind, pure, Except.pure] at h
    split at h
    · rename_i hprelude
      cases h
      exact ((Cursor.upTo_reports hprelude []).of_reads
        (Cursor.reads_identifier? hword).1).of_reads hnamed
    · split at h <;> cases h

theorem readSelector_reports (h : readSelector state cur = .error fault) :
    cur.Reports [] fault := by
  unfold readSelector Cursor.fail at h
  simp only [bind, Except.bind, pure, Except.pure] at h
  split at h
  · rename_i hselector
    cases h
    exact Cursor.upTo_reports hselector []
  · rename_i found hselector
    obtain ⟨selector, stop⟩ := found
    refine Cursor.Reports.of_reads ?_ (Cursor.reads_upTo hselector)
    dsimp only at h ⊢
    split at h
    · cases h
    · rename_i hbrace
      cases h
      refine Cursor.reports_here (.selector ?_)
      rw [List.append_nil]
      refine (Cursor.stop_of_upTo hselector).imp_right ?_
      rintro ⟨c, rest, hrest, hstop⟩
      have hne := Cursor.char?_eq_none_iff.mp hbrace
      simp only [stops, List.mem_cons, List.not_mem_nil, or_false] at hstop
      rcases hstop with rfl | rfl | rfl
      · rw [hrest] at hne
        exact absurd rfl hne
      · exact ⟨rest, .inl hrest⟩
      · exact ⟨rest, .inr hrest⟩

theorem readRule_reports (h : readRule state cur = .error fault) : cur.Reports [] fault := by
  unfold readRule at h
  split at h
  · cases h
  · split at h
    · rename_i hat
      exact readAtRule_reports hat h
    · exact readSelector_reports h

theorem readStatement_reports (h : readStatement state cur = .error fault) :
    cur.Reports [] fault := by
  unfold readStatement at h
  simp only [bind, Except.bind, pure, Except.pure] at h
  split at h
  · rename_i hstatement
    cases h
    exact Cursor.upTo_reports hstatement []
  · rename_i found hstatement
    obtain ⟨statement, stop⟩ := found
    have hreads := Cursor.reads_upTo hstatement
    dsimp only at h hreads
    split at h
    · rename_i rest hbrace
      split at h
      · rename_i hblock
        cases h
        exact (Cursor.block_reports (by rw [hbrace]; rfl) hblock []).of_reads hreads
      · cases h
    · split at h
      · cases h
      · split at h
        · rename_i hdeclaration
          cases h
          exact (Declaration.ofStatement?_reports hdeclaration _).of_part hreads.rest_eq
        · cases h

/-! ### Stylesheets -/

/-- A state follows a source up to a cursor: the braces of its open blocks stand in the source. -/
structure Follows (source : String) (state : State) (cur : Cursor) : Prop where
  inSource : cur.In source
  braces : ∀ block ∈ state.blocks,
    (Cursor.start source.toList).Reports [] ⟨.unterminatedBlock, block.brace⟩

/-- A block is opened at a brace ahead. -/
theorem Opens.brace_reports {head : Head} {brace : Cursor} (h : Opens cur head brace next) :
    cur.Reports [] ⟨.unterminatedBlock, brace.offset⟩ := by
  obtain ⟨text, htext, hbrace⟩ := h.reads
  have hrest : brace.rest = '{' :: next.rest := hbrace.rest_eq
  exact (Cursor.reports_here (.block (by rw [hrest]; rfl))).of_reads htext

/-- A step that goes on opens one block at most, at a brace ahead. -/
theorem advance_onward (h : advance state cur = .ok (.onward state' next)) :
    (∃ taken, Reads cur taken next) ∧ ∀ block ∈ state'.blocks,
      block ∈ state.blocks ∨ cur.Reports [] ⟨.unterminatedBlock, block.brace⟩ := by
  unfold advance Cursor.fail at h
  split at h
  · split at h <;> cases h
  · rename_i rest hrest
    split at h <;> cases h
    rename_i inner outer hblocks
    refine ⟨⟨_, Cursor.reads_pass hrest⟩, fun block hblock => .inl ?_⟩
    rw [hblocks]
    exact List.mem_cons_of_mem inner hblock
  · rename_i rest hrest
    cases h
    exact ⟨⟨_, Cursor.reads_pass hrest⟩, fun block hblock => .inl hblock⟩
  · split at h
    · cases h
    · rename_i state'' next' hread
      cases h
      split at hread
      · rcases readRule_eq_ok hread with ⟨-, hmark, rfl⟩ |
          ⟨-, ⟨head, brace, hopens, rfl⟩ | ⟨node, hleaf, rfl⟩⟩
        · exact ⟨reads_skipMark? hmark, fun block hblock => .inl hblock⟩
        · obtain ⟨text, htext, hbrace⟩ := hopens.reads
          refine ⟨⟨_, htext.trans hbrace⟩, fun block hblock => ?_⟩
          rcases List.mem_cons.mp hblock with rfl | hblock
          · exact .inr hopens.brace_reports
          · exact .inl hblock
        · exact ⟨(hleaf .top rfl).reads, fun block hblock => .inl hblock⟩
      · obtain ⟨node, hleaf, rfl⟩ := readStatement_eq_ok hread
        exact ⟨hleaf.reads, fun block hblock => .inl hblock⟩

theorem advance_reports (h : advance state cur = .error fault) :
    (∃ block ∈ state.blocks, fault = ⟨.unterminatedBlock, block.brace⟩) ∨
      cur.Reports [] fault := by
  unfold advance Cursor.fail at h
  split at h
  · split at h <;> cases h
    rename_i inner outer hblocks
    exact .inl ⟨inner, by rw [hblocks]; exact List.mem_cons_self, rfl⟩
  · rename_i rest hrest
    split at h <;> cases h
    exact .inr (Cursor.reports_here (.brace (by rw [hrest]; rfl)))
  · cases h
  · split at h
    · rename_i hread
      cases h
      split at hread
      · exact .inr (readRule_reports hread)
      · exact .inr (readStatement_reports hread)
    · cases h

variable {source : String}

theorem Follows.reads (h : Follows source state cur) {taken : List Char}
    (hreads : Reads cur taken next) : Follows source state next :=
  ⟨h.inSource.reads hreads, h.braces⟩

theorem Follows.reports (h : Follows source state cur) (hreports : cur.Reports [] fault) :
    (Cursor.start source.toList).Reports [] fault := by
  obtain ⟨front, hfront⟩ := h.inSource
  exact hreports.of_reads hfront

theorem Follows.skipTrivia {begun : Cursor} (h : Follows source state cur)
    (hskip : cur.skipTrivia = .ok begun) : Follows source state begun := by
  obtain ⟨trivia, htrivia⟩ := Cursor.reads_skipTrivia hskip
  exact h.reads htrivia

theorem Follows.onward (h : Follows source state cur)
    (hstep : step state cur = .ok (.onward state' next)) : Follows source state' next := by
  unfold step at hstep
  split at hstep
  · cases hstep
  · rename_i begun hskip
    have hbegun := h.skipTrivia hskip
    obtain ⟨⟨taken, hreads⟩, hblocks⟩ := advance_onward hstep
    refine ⟨hbegun.inSource.reads hreads, fun block hblock => ?_⟩
    exact (hblocks block hblock).elim (h.braces block) hbegun.reports

/-- What a step is refused for is seen in the source. -/
theorem Follows.refused (h : Follows source state cur) (hstep : step state cur = .error fault) :
    (Cursor.start source.toList).Reports [] fault := by
  unfold step at hstep
  split at hstep
  · rename_i hskip
    cases hstep
    exact h.reports (Cursor.skipTrivia_reports hskip [])
  · rename_i begun hskip
    rcases advance_reports hstep with ⟨block, hblock, rfl⟩ | hreports
    · exact h.braces block hblock
    · exact (h.skipTrivia hskip).reports hreports

/-- **A fault points at what it names.** A stylesheet that is refused is refused for something that
stands in it where the fault points, at the boundary of a character, and in one of nine wordings. -/
theorem fault_reported {text : String} {fault : Fault} (h : ofText? text = .error fault) :
    fault.offset ≤ size text.toList ∧ isBoundary fault.offset text.toList = true ∧
      ∃ before ahead, text.toList = before ++ ahead ∧ fault.offset = size before ∧
        ReportedAt before ahead fault fault.message := by
  obtain ⟨before, place, ⟨hrest, hoffset⟩, hfault, hreported⟩ :=
    Pushdown.of_run_error (Follows text) Follows.onward Follows.refused
      (⟨⟨[], .refl _⟩, List.forall_mem_nil _⟩ : Follows text .initial (.start text.toList)) h
  rw [List.append_nil] at hreported
  have htext : text.toList = before ++ place.rest := hrest
  have hsize : fault.offset = size before := by
    rw [hfault, hoffset]
    exact Nat.zero_add _
  refine ⟨?_, Text.isBoundary_iff.mpr ⟨before, place.rest, htext, hsize.symm⟩, before, place.rest,
    htext, hsize, hreported⟩
  rw [hsize, htext, Text.size_append]
  exact Nat.le_add_right _ _

/-- In a nested rule, behind a character of two bytes, a string is ended by its line. -/
theorem fault_reported_of_open_string :
    ∃ fault before ahead,
      ofText? "@media é\x7ba\x7bb:'c\n'\x7d\x7d" = .error fault ∧
      fault.message = "Unterminated string starting at byte 14" ∧
      "@media é\x7ba\x7bb:'c\n'\x7d\x7d".toList = before ++ ahead ∧
      fault.offset = size before ∧ ReportedAt before ahead fault fault.message := by
  have hrun : (ofText? "@media é\x7ba\x7bb:'c\n'\x7d\x7d").map (fun _ => ()) =
      .error ⟨.unterminatedString, 14⟩ := by
    decide +kernel
  cases hread : ofText? "@media é\x7ba\x7bb:'c\n'\x7d\x7d" with
  | ok nodes =>
    rw [hread] at hrun
    cases hrun
  | error fault =>
    rw [hread] at hrun
    cases hrun
    obtain ⟨-, -, before, ahead, htext, hsize, hreported⟩ := fault_reported hread
    exact ⟨_, before, ahead, rfl, by decide +kernel, htext, hsize, hreported⟩

end Sheet

end WebFonts.Css
