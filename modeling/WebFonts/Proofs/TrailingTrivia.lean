import WebFonts.Proofs.CharacterScan
import WebFonts.Proofs.ImportantMark

/-!
# What is dropped at the end of a text

Blanks and comments at the end of a text can only be told from the front: what looks like one may
belong to a string or an escape. `trailing_trivia_dropped` says that `dropTrailingTrivia` drops all
of them and nothing else, unless the scan over the text ends inside a string or a comment, when
nothing is dropped.

A text is divided into lexemes exactly if its scan ends outside strings and comments
(`fault?_eq_none_iff`). A division is cut behind its last lexeme that means something
(`dropTrailingTrivia_spell`), and the lexemes behind it spell a run of blanks and comments
(`TriviaRun.of_lexes`).
-/

namespace WebFonts.Css

open Text (isBlank)

/-- A run of blanks and of comments, each of which ends with the first star that a slash follows. -/
inductive TriviaRun : List Char → Prop
  | nil : TriviaRun []
  | blank {c : Char} {rest : List Char} (hblank : isBlank c = true) (others : TriviaRun rest) :
    TriviaRun (c :: rest)
  | comment {body rest : List Char} (hbody : ¬ ['*', '/'] <:+: body ++ ['*'])
      (others : TriviaRun rest) :
    TriviaRun ('/' :: '*' :: (body ++ ['*', '/']) ++ rest)

/-- The inside of a comment ends with the first star that a slash follows. -/
theorem exists_body_of_closeComment? {text inside after : List Char}
    (h : closeComment? text = some (inside, after)) :
    ∃ body, inside = body ++ ['*', '/'] ∧ ¬ ['*', '/'] <:+: body ++ ['*'] := by
  fun_induction closeComment? text generalizing inside after with
  | case1 => cases h
  | case2 rest =>
    cases h
    exact ⟨[], rfl, by decide⟩
  | case3 c rest hend ih =>
    obtain ⟨⟨tail, last⟩, htail, heq⟩ := Option.map_eq_some_iff.mp h
    cases heq
    obtain ⟨body, rfl, hbody⟩ := ih htail
    refine ⟨c :: body, rfl, fun hinfix => ?_⟩
    rcases List.infix_cons_iff.mp hinfix with hprefix | hinside
    · obtain ⟨rfl, hslash⟩ := List.cons_prefix_cons.mp hprefix
      cases body with
      | nil => simp at hslash
      | cons d body =>
        obtain ⟨rfl, -⟩ := List.cons_prefix_cons.mp hslash
        exact hend _ rfl (append_of_closeComment? htail)
    · exact hbody hinside

/-- Lexemes that mean nothing are blanks and comments. -/
theorem TriviaRun.of_lexes {lexemes : List Lexeme} {rest : List Char} (h : Lexes lexemes rest)
    (htrivia : ∀ lexeme ∈ lexemes, lexeme.isTrivia = true) : TriviaRun (spell lexemes) := by
  induction lexemes with
  | nil => exact .nil
  | cons lexeme lexemes ih =>
    obtain ⟨hbefore, hlexes⟩ := h
    rw [List.forall_mem_cons] at htrivia
    have hothers := ih hlexes htrivia.2
    rw [spell_cons]
    generalize spell lexemes = others at hbefore hothers ⊢
    generalize others ++ rest = ahead at hbefore
    cases hbefore with
    | quoted => cases htrivia.1
    | comment hclose =>
      obtain ⟨body, rfl, hbody⟩ := exists_body_of_closeComment? hclose
      exact .comment hbody hothers
    | escape => cases htrivia.1
    | backslash => cases htrivia.1
    | plain => exact .blank htrivia.1 hothers

theorem passes_of_no_stops (depth : Nat) (lexemes : List Lexeme) : Passes [] depth lexemes := by
  induction lexemes generalizing depth with
  | nil => trivial
  | cons lexeme lexemes ih =>
    refine ⟨fun hstop => ?_, ih _⟩
    cases lexeme <;> simp [Lexeme.isOneOf] at hstop

/-- A scan ends outside strings and comments exactly over a text that is divided into lexemes. -/
theorem fault?_eq_none_iff {text : List Char} :
    ((Scan.start 0).past text).fault? = none ↔
      ∃ lexemes, spell lexemes = text ∧ Lexes lexemes [] := by
  have hneutral : Neutral [] := by simp [Neutral]
  obtain ⟨taken, ahead, hdivides, heq⟩ := Scan.upTo_eq hneutral (Cursor.start text)
  obtain rfl : ahead = [] := by
    cases ahead with
    | nil => rfl
    | cons c rest => simpa [Scan.stopsAt] using hdivides.stopped c rest rfl
  obtain rfl : taken = text := (List.append_nil _).symm.trans hdivides.append_eq
  constructor
  · intro hnone
    rw [show (Cursor.start taken).offset = 0 from rfl, hnone] at heq
    obtain ⟨-, lexemes, hspell, hlexes, -⟩ := (Cursor.upTo_eq_ok_iff hneutral.plain).mp heq
    exact ⟨lexemes, hspell.symm, hlexes⟩
  · rintro ⟨lexemes, rfl, hlexes⟩
    have hread : (Cursor.start (spell lexemes)).upTo [] 0 =
        .ok (spell lexemes, (Cursor.start (spell lexemes)).pass (spell lexemes) []) :=
      Cursor.upTo_of_passes hneutral.plain (Cursor.reads_pass (List.append_nil _).symm) hlexes
        (passes_of_no_stops 0 lexemes) (.inl rfl)
    rw [hread] at heq
    split at heq
    · cases heq
    · assumption

/-- **Exactly the blanks and comments at the end of a text are dropped.** What is left is a
beginning of the text, from which nothing more is dropped. If the scan over the text ends inside a
string or a comment, all of the text is left. Otherwise a run of blanks and comments is dropped, and
what is left, if anything, consists of lexemes of the text, the last of which is a string, an escape
or a character that is no blank. -/
theorem trailing_trivia_dropped (text : List Char) :
    let kept := dropTrailingTrivia text
    dropTrailingTrivia kept = kept ∧
      ∃ dropped, kept ++ dropped = text ∧
        match ((Scan.start 0).past text).fault? with
        | some _ => dropped = []
        | none => TriviaRun dropped ∧
          ∃ lexemes, kept = spell lexemes ∧ Lexes lexemes dropped ∧
            (lexemes = [] ∨ EndsMeaningful lexemes) := by
  cases hfault : ((Scan.start 0).past text).fault? with
  | some fault =>
    have hall : dropTrailingTrivia text = text := dropTrailingTrivia_of_not_lexes fun h => by
      rw [fault?_eq_none_iff.mpr h] at hfault
      cases hfault
    dsimp only
    rw [hall]
    exact ⟨hall, [], List.append_nil _, rfl⟩
  | none =>
    obtain ⟨lexemes, rfl, hlexes⟩ := fault?_eq_none_iff.mp hfault
    obtain ⟨dropped, happend, htrivia⟩ := exists_rdropWhile_append Lexeme.isTrivia lexemes
    have hkept := hlexes.rdropWhile
    have hlast := List.rdropWhile_last_not Lexeme.isTrivia lexemes
    have hagain := List.rdropWhile_idempotent Lexeme.isTrivia lexemes
    have hparts := hlexes
    rw [← happend, lexes_append, List.append_nil] at hparts
    dsimp only
    rw [dropTrailingTrivia_spell hlexes, dropTrailingTrivia_spell hkept, hagain]
    generalize lexemes.rdropWhile Lexeme.isTrivia = kept at happend hparts hlast ⊢
    refine ⟨rfl, spell dropped, by rw [← spell_append, happend],
      .of_lexes hparts.2 htrivia, kept, rfl, hparts.1, ?_⟩
    by_cases hnil : kept = []
    · exact .inl hnil
    · exact .inr ⟨kept.dropLast, kept.getLast hnil, (List.dropLast_append_getLast hnil).symm,
        by simpa using hlast hnil⟩

/-- A comment in a string and a blank behind a backslash are no trivia. -/
example : dropTrailingTrivia "'/* x */'\\ /* y */ ".toList = "'/* x */'\\ ".toList := by
  decide +kernel

end WebFonts.Css
