import WebFonts.Proofs.ImportantMark
import WebFonts.Proofs.Values

/-!
# Values with a mark at their end

A value is cut twice: `cutImportant` takes off the mark, and `trimEnd` the blanks in front of it.
`Component.cutMark` takes the mark off the components of the whole value instead.
`Component.cutMark_eq_iff` says when both agree: exactly if the part that is cut off is a
`Component.CleanCut`, which goes through no token, and no mark is overlooked.

If the cut is clean, the components of what is left are read from the whole value too, as separators
or the mark come next (`Reading.recut`). If both agree, the text behind the last common component
begins with separators (`Reading.gap_behind`), and the mark among the lexemes is the one among the
tokens, since a name that stands for the keyword and has the keyword as its end is the keyword
(`eq_of_keyword`).
-/

namespace WebFonts.Css

open Text (size isBlank sameIgnoringCase trimEnd)
open Cursor (Reads)

namespace Component

variable {cur last : Cursor} {components : List Component}

/-! ### Behind the last component -/

/-- Where no component is read, separators stand. -/
theorem Reading.trivia_of_nil {inFunction : Bool} (h : Reading inFunction cur [] last) :
    ∃ gap, Trivia gap ∧ Reads cur gap last := by
  generalize hcomponents : ([] : List Component) = components at h
  induction h with
  | nil => exact ⟨[], .nil, .refl _⟩
  | separator h others ih =>
    obtain ⟨separator, hseparator, hfirst⟩ := Cursor.separator?_eq_ok_some_iff.mp h
    obtain ⟨gap, hgap, hreads⟩ := ih hcomponents
    exact ⟨_, .cons hseparator hgap, hfirst.trans hreads⟩
  | token | function | stray => cases hcomponents

/-- Some components end at a place between two cursors, with separators behind it, and with nothing
behind it if the last component is a lone backslash. -/
def EndsBetween (cur : Cursor) (components : List Component) (last : Cursor) : Prop :=
  ∃ ended text gap, Reads cur text ended ∧ Reads ended gap last ∧ Trivia gap ∧
    ended.offset = (components.getLast?.map (·.span.stop)).getD cur.offset ∧
    (EndsLone components → gap = [] ∧ last.rest = [])

theorem EndsBetween.cons {next : Cursor} {component : Component} {taken : List Char}
    (hreads : Reads cur taken next) (hstop : component.span.stop = next.offset)
    (hlone : EndsLone [component] → next.rest = [])
    (h : EndsBetween next components last) : EndsBetween cur (component :: components) last := by
  obtain ⟨ended, text, gap, htext, hgapReads, hgap, hended, hothers⟩ := h
  refine ⟨ended, taken ++ text, gap, hreads.trans htext, hgapReads, hgap, ?_, fun hends => ?_⟩
  · rw [hended, List.getLast?_cons]
    cases components.getLast? with
    | none => exact hstop.symm
    | some _ => rfl
  · obtain ⟨span, hlast⟩ := hends
    rw [List.getLast?_cons] at hlast
    cases hsome : components.getLast? with
    | some found =>
      rw [hsome] at hlast
      exact hothers ⟨span, hsome ▸ hlast⟩
    | none =>
      rw [hsome] at hlast
      have hnil := hlone ⟨span, hlast⟩
      rw [htext.rest_eq, hgapReads.rest_eq] at hnil
      simp only [List.append_eq_nil_iff] at hnil
      exact hnil.2

/-- Components end where the last one of them ends. -/
theorem Reading.endsBetween {inFunction : Bool} (h : Reading inFunction cur components last) :
    EndsBetween cur components last := by
  induction h with
  | nil inFunction cur =>
    exact ⟨cur, [], [], .refl _, .refl _, .nil, rfl, fun ⟨_, hlast⟩ => by cases hlast⟩
  | @separator _ cur next last components h others ih =>
    obtain ⟨separator, hseparator, hfirst⟩ := Cursor.separator?_eq_ok_some_iff.mp h
    by_cases hnil : components = []
    · subst hnil
      obtain ⟨gap, hgap, hreads⟩ := others.trivia_of_nil
      exact ⟨cur, [], _, .refl _, hfirst.trans hreads, .cons hseparator hgap, rfl,
        fun ⟨_, hlast⟩ => by cases hlast⟩
    · obtain ⟨ended, text, gap, htext, hgapReads, hgap, hended, hothers⟩ := ih
      refine ⟨ended, _, gap, hfirst.trans htext, hgapReads, hgap, ?_, hothers⟩
      rw [hended, List.getLast?_eq_getLast_of_ne_nil hnil]
      rfl
  | @token _ cur next last components leaf htoken h others ih =>
    obtain ⟨taken, hreads, -⟩ := Cursor.reads_piece? h
    refine ih.cons hreads rfl ?_
    rintro ⟨span, ⟨⟩⟩
    rcases Cursor.firm_of_piece? h hreads with hfirm | ⟨-, hend⟩
    · cases Cursor.pieceAt_of_piece? h with
      | delim hone => exact absurd (hreads.unique hone) hfirm.ne_lone
    · exact hend
  | function htoken h inner hclose hclosing others ihInner ih =>
    obtain ⟨opening, hopening, -⟩ := Cursor.reads_piece? h
    obtain ⟨arguments, harguments⟩ := inner.reads
    obtain ⟨closing, hclosingReads, -⟩ := Cursor.reads_piece? hclosing
    refine ih.cons ((hopening.trans harguments).trans hclosingReads) rfl ?_
    rintro ⟨span, ⟨⟩⟩
  | stray htoken h others ih =>
    obtain ⟨taken, hreads, -⟩ := Cursor.reads_piece? h
    refine ih.cons hreads rfl ?_
    rintro ⟨span, ⟨⟩⟩

/-- A lone backslash at the end of components stands in their text. -/
theorem Reading.mem_of_endsLone {inFunction : Bool} (h : Reading inFunction cur components last)
    (hends : EndsLone components) : '\\' ∈ cur.rest := by
  obtain ⟨span, hlast⟩ := hends
  obtain ⟨front, rfl⟩ := List.getLast?_eq_some_iff.mp hlast
  obtain ⟨begun, ended, hfront, -, hpiece, -, -⟩ := h.split (by decide)
  obtain ⟨text, htext⟩ := hfront.reads
  cases Cursor.pieceAt_of_piece? hpiece with
  | delim hone =>
    rw [htext.rest_eq, hone.rest_eq]
    simp

/-- If a value and a longer text are read into the same components, the longer text goes on with
separators. -/
theorem Reading.gap_behind {offset : Nat} {kept cut : List Char} {middle : Cursor}
    (hkept : Reading false ⟨offset, kept⟩ components last) (hend : last.rest = [])
    (h : Reading false ⟨offset, kept ++ cut⟩ components middle) (htoken : AtToken middle.rest) :
    ∃ gap, Trivia gap ∧ cut = gap ++ middle.rest ∧ (EndsLone components → cut = []) := by
  obtain ⟨ended, text, gap, htext, hgapReads, hgap, hended, hlone⟩ := hkept.endsBetween
  obtain ⟨ended', text', gap', htext', hgapReads', hgap', hended', hlone'⟩ := h.endsBetween
  have hkeptEq : kept = text ++ gap := by
    have := (htext.trans hgapReads).rest_eq
    rwa [hend, List.append_nil] at this
  have hwhole : kept ++ cut = text' ++ (gap' ++ middle.rest) := by
    have := (htext'.trans hgapReads').rest_eq
    rwa [List.append_assoc] at this
  have hsize : size text = size text' := by
    have := htext.offset_eq
    have := htext'.offset_eq
    dsimp only at *
    omega
  rw [hkeptEq, List.append_assoc] at hwhole
  obtain ⟨rfl, hgaps⟩ := Text.append_inj_of_size hwhole hsize
  obtain ⟨behind, hbehind, -, rfl⟩ := hgap.split hgap' htoken hgaps
  refine ⟨behind, hbehind, rfl, fun hends => ?_⟩
  obtain ⟨rfl, hrest⟩ := hlone' hends
  rw [hrest, List.append_nil] at hgaps ⊢
  exact (List.append_eq_nil_iff.mp hgaps).2

/-! ### The mark among components -/

/-- Components without the mark that ends them, and whether one does: an exclamation mark and the
keyword in any case. -/
def cutMark (components : List Component) : List Component × Bool :=
  match components.reverse with
  | .token _ (.ident word) :: .token _ (.delim '!') :: front =>
    if sameIgnoringCase word "important" then (front.reverse, true) else (components, false)
  | _ => (components, false)

theorem cutMark_eq_true_iff {tokens : List Component} :
    cutMark tokens = (components, true) ↔
      ∃ mark span word,
        tokens = components ++ [.token mark (.delim '!'), .token span (.ident word)] ∧
        sameIgnoringCase word "important" = true := by
  constructor
  · intro h
    unfold cutMark at h
    split at h
    · next span word mark front hreverse =>
      split at h
      · next hword =>
        refine ⟨mark, span, word, ?_, hword⟩
        rw [← List.reverse_reverse tokens, hreverse, ← (Prod.mk.inj h).1]
        simp
      · cases (Prod.mk.inj h).2
    · cases (Prod.mk.inj h).2
  · rintro ⟨mark, span, word, rfl, hword⟩
    simp [cutMark, hword]

theorem cutMark_of_snd {tokens : List Component} (h : (cutMark tokens).2 = false) :
    cutMark tokens = (tokens, false) := by
  rcases hcut : cutMark tokens with ⟨front, marked⟩
  rw [hcut] at h
  cases marked with
  | true => cases h
  | false =>
    unfold cutMark at hcut
    split at hcut
    · split at hcut <;> simp_all
    · simp_all

/-- The texts of the mark behind other components. -/
theorem Reading.exists_mark {front : List Component} {mark span : Span} {word : String}
    (h : Reading false cur (front ++ [.token mark (.delim '!'), .token span (.ident word)]) last) :
    ∃ begun between keyword behind, Reading false cur front begun ∧
      begun.rest = '!' :: (between ++ (keyword ++ (behind ++ last.rest))) ∧
      Trivia between ∧ Trivia behind ∧ Whole keyword ∧ word = String.ofList (unescape keyword) ∧
      span = ⟨begun.offset + size ('!' :: between),
        begun.offset + size ('!' :: between) + size keyword⟩ := by
  obtain ⟨begun, ended, hfront, -, hpiece, -, hrest⟩ := h.split (by decide)
  obtain ⟨named, after, hbetween, -, hident, rfl, hbehind⟩ :=
    @Reading.split _ _ _ [] [] _ _ hrest nofun
  obtain ⟨between, hbetween, hreadsBetween⟩ := hbetween.trivia_of_nil
  obtain ⟨behind, hbehind, hreadsBehind⟩ := hbehind.trivia_of_nil
  cases Cursor.pieceAt_of_piece? hpiece with
  | delim hmark =>
    cases Cursor.pieceAt_of_piece? hident with
    | @ident keyword _ hname =>
      obtain ⟨hreadsName, -⟩ := Cursor.reads_identifier? hname
      refine ⟨begun, between, keyword, behind, hfront, ?_, hbetween, hbehind,
        Cursor.whole_of_identifier? hname, rfl, ?_⟩
      · rw [hmark.rest_eq, hreadsBetween.rest_eq, hreadsName.rest_eq, hreadsBehind.rest_eq]
        rfl
      · rw [hreadsName.offset_eq, (hmark.trans hreadsBetween).offset_eq]
        rfl

/-! ### What is cut off -/

/-- What is cut off a value are separators, and with a mark the exclamation mark and the keyword
between separators. -/
inductive CleanCut : Bool → List Char → Prop
  | blank {gap : List Char} (hgap : Trivia gap) : CleanCut false gap
  | mark {gap between keyword behind : List Char} (hgap : Trivia gap) (hbetween : Trivia between)
      (hkeyword : sameIgnoringCase (String.ofList keyword) "important" = true)
      (hbehind : Trivia behind) : CleanCut true (gap ++ '!' :: (between ++ (keyword ++ behind)))

theorem CleanCut.parted {important : Bool} {cut : List Char} (h : CleanCut important cut) :
    Parted cut := by
  cases h with
  | blank hgap =>
    have hparted := hgap.parted .ended
    rwa [List.append_nil] at hparted
  | mark hgap => exact hgap.parted (.cons _ rfl)

/-- The letters of the keyword can begin a name. -/
theorem isNameStart_of_important {keyword : List Char}
    (h : sameIgnoringCase (String.ofList keyword) "important" = true) :
    ∀ c ∈ keyword, isNameStart c = true := by
  intro c hc
  have hall : ∀ d ∈ "important".toList, d.isAlpha = true := List.all_eq_true.mp (by decide)
  exact Cursor.isNameStart_of_toLower
    (hall _ (toLower_of_important h ▸ List.mem_map_of_mem hc))

/-- The keyword is read as an identifier in front of separators. -/
theorem piece?_keyword {keyword behind : List Char}
    (h : sameIgnoringCase (String.ofList keyword) "important" = true) (hbehind : Trivia behind)
    (offset : Nat) :
    AtToken (keyword ++ behind) ∧ (Cursor.mk offset (keyword ++ behind)).piece? =
      .ok (some (.token (.ident (String.ofList keyword)), ⟨offset + size keyword, behind⟩)) := by
  obtain ⟨hlength, hplain, -⟩ := plain_of_important h
  have hparted := hbehind.parted .ended
  rw [List.append_nil] at hparted
  have hstart := isNameStart_of_important h
  cases keyword with
  | nil => exact absurd hlength (by decide)
  | cons c letters =>
    rw [List.forall_mem_cons] at hstart
    have hname := @Cursor.identifier?_of_all c letters behind hstart.1
      (fun d hd => by simp [isNameChar, hstart.2 d hd]) hparted.spanName offset
    have hpiece := Cursor.piece?_of_identifier? hname (hparted.head?_ne rfl)
    rw [unescape_word fun d hd => (hplain d hd).1] at hpiece
    exact ⟨atToken_of_isNameStart hstart.1 _, hpiece⟩

/-- An exclamation mark is a token, whatever follows it. -/
theorem piece?_exclamation (offset : Nat) (rest : List Char) :
    (Cursor.mk offset ('!' :: rest)).piece? =
      .ok (some (.token (.delim '!'), ⟨offset + 1, rest⟩)) := by
  have hurl : (Cursor.mk offset ('!' :: rest)).url? = none := by
    cases hurl : (Cursor.mk offset ('!' :: rest)).url? with
    | none => rfl
    | some found =>
      obtain ⟨-, c, others, heq, hc⟩ := Cursor.eq_url_of_url? hurl
      rw [← (List.cons_eq_cons.mp heq).1] at hc
      cases hc
  have hnumeric : (Cursor.mk offset ('!' :: rest)).numeric? = none :=
    Cursor.numeric?_eq_none_iff.mpr rfl
  have hname : (Cursor.mk offset ('!' :: rest)).identifier? = none :=
    Cursor.identifier?_eq_none_iff.mpr rfl
  unfold Cursor.piece?
  simp only [Cursor.otherPiece, hurl, hnumeric, hname]
  rfl

/-- What is cut off cleanly is read as nothing or as the mark. -/
theorem CleanCut.reading {important : Bool} {cut : List Char} (h : CleanCut important cut)
    (offset : Nat) :
    ∃ tokens last, Reading false ⟨offset, cut⟩ tokens last ∧ last.rest = [] ∧
      if important then
        ∃ mark span word, tokens = [.token mark (.delim '!'), .token span (.ident word)] ∧
          sameIgnoringCase word "important" = true
      else tokens = [] := by
  cases h with
  | @blank gap hgap =>
    exact ⟨[], ⟨offset + size cut, []⟩,
      .of_trivia hgap ⟨(List.append_nil _).symm, rfl⟩ (.nil _ _), rfl, rfl⟩
  | @mark gap between keyword behind hgap hbetween hkeyword hbehind =>
    obtain ⟨hnamed, hpiece⟩ :=
      piece?_keyword hkeyword hbehind (offset + size gap + 1 + size between)
    have hmark := piece?_exclamation (offset + size gap) (between ++ (keyword ++ behind))
    have hbehindReading : Reading false
        ⟨offset + size gap + 1 + size between + size keyword, behind⟩ []
        ⟨offset + size gap + 1 + size between + size keyword + size behind, []⟩ :=
      .of_trivia hbehind ⟨(List.append_nil _).symm, rfl⟩ (.nil _ _)
    have hbetweenReading :
        Reading false ⟨offset + size gap + 1, between ++ (keyword ++ behind)⟩ _ _ :=
      .of_trivia hbetween ⟨rfl, rfl⟩ (.token hnamed hpiece hbehindReading)
    have hreading : Reading false ⟨offset, gap ++ '!' :: (between ++ (keyword ++ behind))⟩ _ _ :=
      .of_trivia hgap ⟨rfl, rfl⟩
        (.token (atToken_of_ne (by decide) (by decide)) hmark hbetweenReading)
    exact ⟨_, _, hreading, rfl, _, _, _, rfl, hkeyword⟩

end Component

/-! ### Keywords in a text -/

/-- What means nothing begins with a blank or a slash. -/
theorem Lexeme.Before.exists_of_isTrivia {lexeme : Lexeme} {rest : List Char}
    (h : lexeme.Before rest) (htrivia : lexeme.isTrivia = true) :
    ∃ c tail, lexeme.text = c :: tail ∧ c ≠ '\\' ∧ (isBlank c = true ∨ c = '/') := by
  cases h with
  | quoted => cases htrivia
  | comment => exact ⟨_, _, rfl, by decide, .inr rfl⟩
  | escape | backslash => cases htrivia
  | plain hescape => exact ⟨_, _, rfl, hescape, .inl htrivia⟩

section Keyword

variable {word : List Char} {gap behind between others after : List Lexeme}

/-- A name that stands for the keyword has no lexeme without a meaning in front. -/
theorem head_of_keyword
    (hword : sameIgnoringCase (String.ofList (unescape (spell others))) "important" = true)
    (hlexes : Lexes others []) :
    ∀ lexeme, others.head? = some lexeme → lexeme.isTrivia = false := by
  intro lexeme hhead
  rw [Bool.eq_false_iff]
  intro htrivia
  cases others with
  | nil => cases hhead
  | cons first others =>
    cases hhead
    obtain ⟨c, tail, htext, hescape, hc⟩ := hlexes.1.exists_of_isTrivia htrivia
    obtain ⟨-, hplain, hblank⟩ := plain_of_important hword
    rw [spell_cons, htext, List.cons_append, unescape_cons hescape] at hplain hblank
    rcases hc with hc | rfl
    · rw [hblank c (List.mem_cons_self ..)] at hc
      cases hc
    · exact (hplain '/' (List.mem_cons_self ..)).2.1 rfl

/-- Where the keyword stands, with what means nothing behind it, a name that stands for the keyword
is the keyword itself. -/
theorem eq_of_keyword_append (hbehind : ∀ lexeme ∈ behind, lexeme.isTrivia = true)
    (hword : sameIgnoringCase (String.ofList word) "important" = true)
    (hafter : ∀ lexeme ∈ after, lexeme.isTrivia = true)
    (hothers : sameIgnoringCase (String.ofList (unescape (spell others))) "important" = true)
    (hlexes : Lexes others []) (heq : word.map .plain ++ behind = others ++ after) :
    word = spell others := by
  obtain ⟨hlength, hplain, hblank⟩ := plain_of_important hword
  rcases List.append_eq_append_iff.mp heq with ⟨more, rfl, rfl⟩ | ⟨more, hwordEq, rfl⟩
  · -- what the name would have behind the keyword stands for nothing
    have hunescaped := (plain_of_important hothers).1
    rw [spell_append, spell_map_plain, unescape_append fun c hc => (hplain c hc).1,
      List.length_append, hlength] at hunescaped
    have hnil : unescape (spell more) = [] := List.length_eq_zero_iff.mp (by omega)
    cases more with
    | nil => simp [spell_map_plain]
    | cons first more =>
      obtain ⟨c, tail, htext, hescape, -⟩ :=
        (lexes_append.mp hlexes).2.1.exists_of_isTrivia (hbehind first (List.mem_cons_self ..))
      rw [spell_cons, htext, List.cons_append, unescape_cons hescape] at hnil
      cases hnil
  · -- what the keyword would have behind the name means nothing
    cases more with
    | nil =>
      rw [List.append_nil] at hwordEq
      rw [← hwordEq, spell_map_plain]
    | cons first more =>
      have hfirst : first ∈ word.map Lexeme.plain := by
        rw [hwordEq]
        simp
      obtain ⟨c, hc, rfl⟩ := List.mem_map.mp hfirst
      have htrivia : isBlank c = true := hafter (.plain c) (List.mem_cons_self ..)
      rw [hblank c hc] at htrivia
      cases htrivia

/-- Where the keyword stands among what means nothing, a name that stands for the keyword is the
keyword itself. -/
theorem eq_of_keyword (hgap : ∀ lexeme ∈ gap, lexeme.isTrivia = true)
    (hbehind : ∀ lexeme ∈ behind, lexeme.isTrivia = true)
    (hword : sameIgnoringCase (String.ofList word) "important" = true)
    (hbetween : ∀ lexeme ∈ between, lexeme.isTrivia = true)
    (hafter : ∀ lexeme ∈ after, lexeme.isTrivia = true)
    (hothers : sameIgnoringCase (String.ofList (unescape (spell others))) "important" = true)
    (hlexes : Lexes (between ++ (others ++ after)) [])
    (heq : gap ++ (word.map .plain ++ behind) = between ++ (others ++ after)) :
    word = spell others := by
  obtain ⟨hlength, -, hblank⟩ := plain_of_important hword
  have hlexesOthers := (lexes_append.mp (lexes_append.mp hlexes).2).1.atEnd
  have hletters : (word.map Lexeme.plain ++ behind).takeWhile Lexeme.isTrivia = [] := by
    cases word with
    | nil => exact absurd hlength (by decide)
    | cons c word =>
      rw [List.map_cons, List.cons_append, List.takeWhile_cons_of_neg]
      simpa [Lexeme.isTrivia] using hblank c (List.mem_cons_self ..)
  have hname : (others ++ after).takeWhile Lexeme.isTrivia = [] := by
    cases others with
    | nil => exact absurd (plain_of_important hothers).1 (by rw [spell_nil, unescape]; decide)
    | cons first others =>
      have hfirst := head_of_keyword hothers hlexesOthers first rfl
      rw [List.cons_append, List.takeWhile_cons_of_neg (by simp [hfirst])]
  have hgaps := congrArg (List.takeWhile Lexeme.isTrivia) heq
  rw [List.takeWhile_append_of_pos hgap, List.takeWhile_append_of_pos hbetween, hletters, hname,
    List.append_nil, List.append_nil] at hgaps
  subst hgaps
  rw [List.append_cancel_left_eq] at heq
  exact eq_of_keyword_append hbehind hword hafter hothers hlexesOthers heq

end Keyword

/-- Separators that blanks stand for in front of an exclamation mark are these blanks. -/
theorem Trivia.eq_blanks {gap blanks rest rest' : List Char} (hgap : Trivia gap)
    (hblanks : blanks.all isBlank = true) (heq : gap ++ '!' :: rest = blanks ++ '!' :: rest') :
    gap = blanks ∧ rest = rest' := by
  induction hgap generalizing blanks with
  | nil =>
    cases blanks with
    | nil => exact ⟨rfl, (List.cons_eq_cons.mp heq).2⟩
    | cons c blanks =>
      obtain ⟨rfl, -⟩ := List.cons_eq_cons.mp heq
      cases hblanks
  | cons first others ih =>
    cases blanks with
    | nil =>
      cases first with
      | blank hblank =>
        obtain ⟨rfl, -⟩ := List.cons_eq_cons.mp heq
        cases hblank
      | comment => cases heq
    | cons c blanks =>
      rw [List.all_cons, Bool.and_eq_true] at hblanks
      cases first with
      | blank hblank =>
        obtain ⟨rfl, htail⟩ := List.cons_eq_cons.mp heq
        obtain ⟨rfl, hrest⟩ := ih hblanks.2 htail
        exact ⟨rfl, hrest⟩
      | comment =>
        obtain ⟨rfl, -⟩ := List.cons_eq_cons.mp heq
        cases hblanks.1

namespace Component

variable {offset : Nat} {value kept cut : List Char} {components tokens : List Component}
  {important : Bool}

/-- Behind a clean cut, the mark is all that the whole value has more. -/
theorem cutMark_of_cleanCut (hkept : readAll ⟨offset, kept⟩ = .ok components)
    (hvalue : readAll ⟨offset, kept ++ cut⟩ = .ok tokens) (hclean : CleanCut important cut)
    (hlone : EndsLone components → cut = [])
    (hfound : (cutMark tokens).2 = true → important = true) :
    cutMark tokens = (components, important) := by
  obtain ⟨last, hreading, hend⟩ := readAll_eq_ok_iff.mp hkept
  have hlike : AlikeAfter components last.rest cut := by
    by_cases hends : EndsLone components
    · rw [hlone hends, hend]
      exact .behind (.refl [])
    · exact .parted hclean.parted hends
  obtain ⟨taken, components', hreads, -, hsame, hrecut⟩ := hreading.recut hlike offset
  obtain rfl := hsame rfl
  obtain rfl : kept = taken := by rw [← List.append_nil taken, ← hend, ← hreads.rest_eq]
  obtain ⟨more, ended, hmore, hendMore, hshape⟩ := hclean.reading (offset + size kept)
  have hwhole := readAll_eq_ok_iff.mpr ⟨ended, hrecut.append hmore, hendMore⟩
  obtain rfl : tokens = components' ++ more := Except.ok.inj (hvalue.symm.trans hwhole)
  cases important with
  | true =>
    obtain ⟨mark, span, word, rfl, hword⟩ := hshape
    exact cutMark_eq_true_iff.mpr ⟨mark, span, word, rfl, hword⟩
  | false =>
    obtain rfl : more = [] := hshape
    rw [List.append_nil] at hfound ⊢
    exact cutMark_of_snd (Bool.eq_false_iff.mpr fun htrue => by cases hfound htrue)

/-- If the whole value is read into the same components, separators are cut off. -/
theorem cleanCut_of_same (hkept : readAll ⟨offset, kept⟩ = .ok components)
    (hvalue : readAll ⟨offset, kept ++ cut⟩ = .ok components) :
    CleanCut false cut ∧ (EndsLone components → cut = []) := by
  obtain ⟨last, hreading, hend⟩ := readAll_eq_ok_iff.mp hkept
  obtain ⟨last', hreading', hend'⟩ := readAll_eq_ok_iff.mp hvalue
  obtain ⟨gap, hgap, rfl, hlone⟩ := hreading.gap_behind hend hreading' (by rw [hend']; trivial)
  refine ⟨.blank ?_, hlone⟩
  rwa [hend', List.append_nil]

/-- If the whole value is read into the same components and a mark, it is the mark that is cut
off. -/
theorem cleanCut_of_mark {lexemes : List Lexeme} {front : List Char}
    (hlexes : Lexes lexemes []) (hcut : cutImportant (spell lexemes) = (front, true))
    (happend : trimEnd front ++ cut = spell lexemes)
    (hkept : readAll ⟨offset, trimEnd front⟩ = .ok components)
    (hvalue : readAll ⟨offset, spell lexemes⟩ = .ok tokens)
    (hmark : cutMark tokens = (components, true)) :
    CleanCut true cut ∧ (EndsLone components → cut = []) := by
  obtain ⟨mark, span, word, rfl, hword⟩ := cutMark_eq_true_iff.mp hmark
  obtain ⟨last, hreading, hend⟩ := readAll_eq_ok_iff.mp hkept
  obtain ⟨ended, hwhole, hendWhole⟩ := readAll_eq_ok_iff.mp hvalue
  obtain ⟨begun, between, keyword, after, hfront, hbegun, hbetween, hafter, hkeyword, rfl, -⟩ :=
    hwhole.exists_mark
  rw [hendWhole, List.append_nil] at hbegun
  rw [← happend] at hfront
  have htoken : AtToken begun.rest := hbegun ▸ atToken_of_ne (by decide) (by decide)
  obtain ⟨gap, hgap, hcutEq, hlone⟩ := hreading.gap_behind hend hfront htoken
  -- the mark of the lexemes is the mark among the tokens
  obtain ⟨gapLexemes, behind, letters, hspell, hlexesMark, hgapTrivia, hbehind, hletters⟩ :=
    ((cutImportant_spell_iff hlexes).mp hcut).exists_keyword hlexes
  obtain ⟨blanks, hblanks, hall⟩ := Text.trimEnd_append front
  have hsplit : gap ++ '!' :: (between ++ (keyword ++ after)) =
      blanks ++ '!' :: spell (gapLexemes ++ (letters.map .plain ++ behind)) := by
    have hfrontEq (tail : List Char) : front ++ tail = trimEnd front ++ (blanks ++ tail) := by
      rw [← List.append_assoc, hblanks]
    rwa [hspell, hcutEq, hbegun, hfrontEq, List.append_cancel_left_eq] at happend
  obtain ⟨-, htail⟩ := hgap.eq_blanks hall hsplit
  obtain ⟨betweenLexemes, rfl, hlexesBetween, hbetweenTrivia⟩ := hbetween.lexemes
  obtain ⟨afterLexemes, rfl, hlexesAfter, hafterTrivia⟩ := hafter.lexemes
  obtain ⟨keywordLexemes, rfl, hlexesKeyword⟩ := hkeyword
  have hlexesTokens : Lexes (betweenLexemes ++ (keywordLexemes ++ afterLexemes)) [] :=
    lexes_append.mpr ⟨hlexesBetween _, lexes_append.mpr ⟨hlexesKeyword _, hlexesAfter _⟩⟩
  have hsame := hlexesMark.unique hlexesTokens (by rw [← htail]; simp)
  obtain rfl := eq_of_keyword hgapTrivia hbehind hletters hbetweenTrivia hafterTrivia hword
    hlexesTokens hsame
  refine ⟨?_, hlone⟩
  rw [hcutEq, hbegun]
  exact .mark hgap hbetween hletters hafter

/-- The cut of a value agrees with its components exactly if it is clean, nothing is cut off behind
a lone backslash, and no mark among the components is left. -/
theorem cutMark_eq_iff (hlexes : ∃ lexemes, spell lexemes = value ∧ Lexes lexemes [])
    (happend : trimEnd (cutImportant value).1 ++ cut = value)
    (hkept : readAll ⟨offset, trimEnd (cutImportant value).1⟩ = .ok components)
    (hvalue : readAll ⟨offset, value⟩ = .ok tokens) :
    cutMark tokens = (components, (cutImportant value).2) ↔
      CleanCut (cutImportant value).2 cut ∧ (EndsLone components → cut = []) ∧
        ((cutMark tokens).2 = true → (cutImportant value).2 = true) := by
  constructor
  · intro heq
    have hfound : (cutMark tokens).2 = true → (cutImportant value).2 = true := by
      rw [heq]
      exact id
    rcases hcut : cutImportant value with ⟨front, important⟩
    rw [hcut] at happend hkept heq hfound
    cases important with
    | true =>
      obtain ⟨lexemes, rfl, hlexes⟩ := hlexes
      obtain ⟨hclean, hlone⟩ := cleanCut_of_mark hlexes hcut happend hkept hvalue heq
      exact ⟨hclean, hlone, hfound⟩
    | false =>
      rw [cutMark_of_snd (by rw [heq])] at heq
      obtain ⟨rfl, -⟩ := Prod.mk.inj heq
      obtain ⟨hclean, hlone⟩ := cleanCut_of_same hkept (happend ▸ hvalue)
      exact ⟨hclean, hlone, hfound⟩
  · rintro ⟨hclean, hlone, hfound⟩
    exact cutMark_of_cleanCut hkept (happend.symm ▸ hvalue) hclean hlone hfound

/-- A mark is found if no address stands in front of it and its keyword is written without
escapes. -/
theorem important_of_mark {front : List Component} {mark span : Span} {word : String}
    (hvalue : readAll ⟨offset, value⟩ =
      .ok (front ++ [.token mark (.delim '!'), .token span (.ident word)]))
    (hword : sameIgnoringCase word "important" = true) (hurl : anyHasUrl front = false) :
    ∃ begun keyword behind, value = begun ++ (keyword ++ behind) ∧
      span = ⟨offset + size begun, offset + size begun + size keyword⟩ ∧
      ('\\' ∉ keyword → (cutImportant value).2 = true) := by
  obtain ⟨last, hreading, hend⟩ := readAll_eq_ok_iff.mp hvalue
  obtain ⟨ended, between, keyword, behind, hfront, hended, hbetween, hbehind, -, rfl, rfl⟩ :=
    hreading.exists_mark
  rw [hend, List.append_nil] at hended
  obtain ⟨lexemes, hreads, hlexes⟩ := hfront.scans hurl
  have hvalueEq : value = spell lexemes ++ ended.rest := hreads.rest_eq
  have hoffset := hreads.offset_eq
  refine ⟨spell lexemes ++ '!' :: between, keyword, behind, ?_, ?_, fun hescape => ?_⟩
  · rw [hvalueEq, hended]
    simp
  · rw [Text.size_append, ← Nat.add_assoc, ← hoffset]
  · rw [unescape_word fun c hc heq => hescape (heq ▸ hc)] at hword
    obtain ⟨-, hplain, -⟩ := plain_of_important hword
    obtain ⟨gap, rfl, hlexesGap, hgap⟩ := hbetween.lexemes
    obtain ⟨after, rfl, hlexesAfter, hafter⟩ := hbehind.lexemes
    have hspell :
        spell (lexemes ++ .plain '!' :: (gap ++ keyword.map .plain ++ after)) = value := by
      rw [hvalueEq, hended]
      simp [Lexeme.text, spell_map_plain]
    have hlexesBehind : Lexes (gap ++ keyword.map .plain ++ after) [] :=
      lexes_append.mpr ⟨lexes_append.mpr ⟨hlexesGap _, lexes_map_plain hplain _⟩, hlexesAfter _⟩
    have hlexesMark : Lexes (.plain '!' :: (gap ++ keyword.map .plain ++ after)) [] :=
      ⟨.plain (by decide) (by decide) fun hslash => absurd hslash (by decide), hlexesBehind⟩
    have hmarked : Lexes (lexemes ++ .plain '!' :: (gap ++ keyword.map .plain ++ after)) [] := by
      refine lexes_append.mpr ⟨hlexes.congr ?_, hlexesMark⟩
      rw [hended]
      rfl
    rw [← hspell, (cutImportant_spell_iff hmarked).mpr (.plain _ _ _ _ hgap hafter hword)]

/-- The cut is clean in a text without backslashes where every blank is a separator. -/
theorem cleanCut_of_plain {lexemes : List Lexeme} {front : List Char} (hlexes : Lexes lexemes [])
    (hcut : cutImportant (spell lexemes) = (front, important))
    (happend : trimEnd front ++ cut = spell lexemes) (hescape : '\\' ∉ spell lexemes)
    (hblank : ∀ c ∈ spell lexemes, isBlank c = true → c.isWhitespace = true) :
    CleanCut important cut := by
  obtain ⟨blanks, hblanks, hall⟩ := Text.trimEnd_append front
  have hgap (hin : ∀ c ∈ blanks, c ∈ spell lexemes) : Trivia blanks :=
    .of_whitespace fun c hc => hblank c (hin c hc) (List.all_eq_true.mp hall c hc)
  cases important with
  | false =>
    obtain rfl := cutImportant_of_not_important hcut
    obtain rfl : cut = blanks := List.append_cancel_left (happend.trans hblanks.symm)
    exact .blank (hgap fun c hc => hblanks ▸ List.mem_append_right _ hc)
  | true =>
    have hmarked := (cutImportant_spell_iff hlexes).mp hcut
    cases hmarked with
    | escaped => simp [Lexeme.text] at hescape
    | plain front between behind word hbetween hbehind hword =>
      obtain ⟨-, -, hlexesMark⟩ := lexes_append.mp hlexes
      obtain ⟨hlexesWord, hlexesBehind⟩ := lexes_append.mp hlexesMark
      have hspell : spell (front ++ .plain '!' :: (between ++ word.map .plain ++ behind)) =
          spell front ++ '!' :: (spell between ++ (word ++ spell behind)) := by
        simp [Lexeme.text, spell_map_plain]
      rw [hspell] at happend hgap hblank
      simp only [List.forall_mem_append, List.forall_mem_cons] at hblank
      obtain rfl : cut = blanks ++ '!' :: (spell between ++ (word ++ spell behind)) :=
        List.append_cancel_left (happend.trans (by rw [← List.append_assoc (trimEnd _), hblanks]))
      refine .mark (hgap fun c hc => ?_) ?_ hword ?_
      · exact List.mem_append_left _ (hblanks ▸ List.mem_append_right _ hc)
      · exact (lexes_append.mp hlexesWord).1.trivia hbetween hblank.2.2.1
      · exact hlexesBehind.trivia hbehind hblank.2.2.2.2

/-- The cut of a value agrees with its components if no backslash and no address stands in it and
its blanks are separators. -/
theorem cutMark_of_plain (hlexes : ∃ lexemes, spell lexemes = value ∧ Lexes lexemes [])
    (happend : trimEnd (cutImportant value).1 ++ cut = value)
    (hkept : readAll ⟨offset, trimEnd (cutImportant value).1⟩ = .ok components)
    (hvalue : readAll ⟨offset, value⟩ = .ok tokens) (hescape : '\\' ∉ value)
    (hblank : ∀ c ∈ value, isBlank c = true → c.isWhitespace = true)
    (hurl : anyHasUrl tokens = false) :
    cutMark tokens = (components, (cutImportant value).2) := by
  have hclean : CleanCut (cutImportant value).2 cut := by
    obtain ⟨lexemes, rfl, hlexes⟩ := hlexes
    exact cleanCut_of_plain hlexes rfl happend hescape hblank
  refine cutMark_of_cleanCut hkept (happend.symm ▸ hvalue) hclean (fun hends => ?_) fun hmark => ?_
  · obtain ⟨last, hreading, -⟩ := readAll_eq_ok_iff.mp hkept
    rw [← happend] at hescape
    exact absurd (List.mem_append_left cut (hreading.mem_of_endsLone hends)) hescape
  · obtain ⟨front, hfront⟩ : ∃ front, cutMark tokens = (front, true) := ⟨_, Prod.ext rfl hmark⟩
    obtain ⟨mark, span, word, rfl, hword⟩ := cutMark_eq_true_iff.mp hfront
    rw [anyHasUrl_append, Bool.or_eq_false_iff] at hurl
    obtain ⟨begun, keyword, behind, rfl, -, hfound⟩ := important_of_mark hvalue hword hurl.1
    refine hfound fun hkeyword => hescape ?_
    simp [hkeyword]

end Component

end WebFonts.Css
