import WebFonts.Proofs.LocatedFaults

/-!
# Extents found character by character

The functions that find the end of a stretch of text walk over lexemes, and those for blocks begin
a new walk behind every brace. This file reads a text once, from left to right and one character at
a time, with no look at what follows: a `Scan` is the state between two characters. It knows whether
it is inside a string, a comment or an escape, where that began, and how many brackets are open.
`extents_of_scan` says that the walks find what the scan finds: `Cursor.upTo` the first character at
which it stops, `Cursor.block` the shortest text over which the braces balance at which it stops,
and either of them, where it fails, the string or the comment that the scan ends inside of.

The two ways to read are compared lexeme by lexeme. Between two lexemes a scan is `Ready`, which it
is not behind a slash in front of a star; over a lexeme it stops nowhere but at the first character
(`past_lexeme`). Behind a brace at which it stops, a scan is as at the beginning of a text
(`step_eq_start`), so that a walk that begins anew goes on as the scan does (`closesByBalance`).
-/

namespace WebFonts.Css

open Cursor (Reads)
open Text (size)

/-! ### The scan -/

/-- What a scan is inside of, with the offset at which that began. -/
inductive Region where
  /-- Characters that stand for themselves. -/
  | plain
  /-- Behind a slash, which a star would turn into a comment. -/
  | slash (start : Nat)
  /-- Behind a backslash. -/
  | escape
  | string (quote : Char) (start : Nat)
  /-- Behind a backslash in a string. -/
  | stringEscape (quote : Char) (start : Nat)
  /-- Behind a line feed in a string, which nothing closes any more. -/
  | torn (start : Nat)
  | comment (start : Nat)
  /-- Behind a star in a comment, which a slash would close. -/
  | star (start : Nat)
deriving Repr, DecidableEq

/-- Whether a region is the inside of a string, a comment or an escape. -/
def Region.isInside : Region → Bool
  | .plain | .slash _ => false
  | _ => true

/-- A scan between two characters of a text. -/
structure Scan where
  offset : Nat
  /-- The number of open brackets. -/
  depth : Nat
  region : Region
deriving Repr, DecidableEq

namespace Scan

/-- The scan at the beginning of a text that begins at an offset. -/
def start (offset : Nat) : Scan :=
  ⟨offset, 0, .plain⟩

/-- The brackets that are open behind a character that stands for itself. A closing bracket that
matches nothing leaves the number at zero. -/
def depthBehind (depth : Nat) (c : Char) : Nat :=
  if c = '(' ∨ c = '[' then depth + 1 else if c = ')' ∨ c = ']' then depth - 1 else depth

/-- The region behind a character that begins something or stands for itself. -/
def regionBehind (offset : Nat) (c : Char) : Region :=
  if c = '"' ∨ c = '\'' then .string c offset
  else if c = '\\' then .escape
  else if c = '/' then .slash offset
  else .plain

/-- The scan behind a character that begins something or stands for itself. -/
def begin (scan : Scan) (c : Char) : Scan :=
  ⟨scan.offset + c.utf8Size, depthBehind scan.depth c, regionBehind scan.offset c⟩

/-- The scan behind a character that belongs to a region. -/
def within (scan : Scan) (c : Char) (region : Region) : Scan :=
  ⟨scan.offset + c.utf8Size, scan.depth, region⟩

/-- The scan behind a character. -/
def step (scan : Scan) (c : Char) : Scan :=
  match scan.region with
  | .plain => scan.begin c
  | .slash start => if c = '*' then scan.within c (.comment start) else scan.begin c
  | .escape => scan.within c .plain
  | .string quote start => scan.within c <|
    if c = '\\' then .stringEscape quote start
    else if c = '\n' then .torn start
    else if c = quote then .plain
    else .string quote start
  | .stringEscape quote start => scan.within c (.string quote start)
  | .torn start => scan.within c (.torn start)
  | .comment start => scan.within c (if c = '*' then .star start else .comment start)
  | .star start => scan.within c <|
    if c = '/' then .plain else if c = '*' then .star start else .comment start

/-- The scan behind a text. -/
def past (scan : Scan) (text : List Char) : Scan :=
  text.foldl step scan

/-- The string or the comment that a scan is inside of, as a fault at its beginning. -/
def fault? (scan : Scan) : Option Fault :=
  match scan.region with
  | .string _ start | .stringEscape _ start | .torn start => some ⟨.unterminatedString, start⟩
  | .comment start | .star start => some ⟨.unterminatedComment, start⟩
  | .plain | .slash _ | .escape => none

/-- Whether a scan stops at the character ahead of it: at one of `stops` that stands for itself,
outside brackets. -/
def stopsAt (stops : List Char) (scan : Scan) (c : Char) : Bool :=
  scan.depth == 0 && stops.contains c &&
    match scan.region with
    | .plain => true
    | .slash _ => c != '*'
    | _ => false

/-- A scan stops at no character of a text. -/
def PassesOver (stops : List Char) (scan : Scan) (text : List Char) : Prop :=
  ∀ front c back, text = front ++ c :: back → (scan.past front).stopsAt stops c = false

/-- A text is divided before the first character at which a scan stops, or at its end. -/
structure Divides (stops : List Char) (scan : Scan) (text taken ahead : List Char) : Prop where
  append_eq : taken ++ ahead = text
  passed : scan.PassesOver stops taken
  stopped : ∀ c rest, ahead = c :: rest → (scan.past taken).stopsAt stops c = true

/-- What a brace adds to the balance. -/
def weight (c : Char) : Int :=
  if c = '{' then 1 else -1

/-- The opening braces less the closing ones, among those at which a scan stops. -/
def balance (scan : Scan) : List Char → Int
  | [] => 0
  | c :: rest => (if scan.stopsAt ['{', '}'] c then weight c else 0) + (scan.step c).balance rest

/-- A text is the shortest beginning of another one, but for the empty text, over which the braces
balance. -/
structure Balances (scan : Scan) (text taken ahead : List Char) : Prop where
  append_eq : taken ++ ahead = text
  ne_nil : taken ≠ []
  balanced : scan.balance taken = 0
  shortest : ∀ front c back, taken = front ++ c :: back → front ≠ [] → scan.balance front ≠ 0

/-! ### A scan over a part of a text -/

variable {scan : Scan} {stops text front back : List Char} {c : Char}

@[simp] theorem past_nil (scan : Scan) : scan.past [] = scan := rfl

@[simp] theorem past_cons (scan : Scan) (c : Char) (rest : List Char) :
    scan.past (c :: rest) = (scan.step c).past rest := rfl

@[simp] theorem past_append (scan : Scan) (front back : List Char) :
    scan.past (front ++ back) = (scan.past front).past back :=
  List.foldl_append

@[simp] theorem passesOver_nil : scan.PassesOver stops [] := by
  intro front c back h
  simp at h

theorem passesOver_append :
    scan.PassesOver stops (front ++ back) ↔
      scan.PassesOver stops front ∧ (scan.past front).PassesOver stops back := by
  constructor
  · intro h
    refine ⟨fun before c behind heq => h before c (behind ++ back) (by simp [heq]),
      fun before c behind heq => ?_⟩
    rw [← past_append]
    exact h (front ++ before) c behind (by simp [heq])
  · rintro ⟨hfront, hback⟩ before c behind heq
    rcases List.append_eq_append_iff.mp heq with ⟨inside, rfl, hinside⟩ | ⟨inside, rfl, hinside⟩
    · rw [past_append]
      exact hback inside c behind hinside
    · cases inside with
      | nil => simpa using hback [] c behind (by simpa using hinside.symm)
      | cons d inside =>
        obtain ⟨rfl, -⟩ := List.cons.inj hinside
        exact hfront before c inside rfl

theorem passesOver_cons :
    scan.PassesOver stops (c :: text) ↔
      scan.stopsAt stops c = false ∧ (scan.step c).PassesOver stops text := by
  have hone : scan.PassesOver stops [c] ↔ scan.stopsAt stops c = false := by
    refine ⟨fun h => h [] c [] rfl, fun h before d behind heq => ?_⟩
    cases before <;> simp_all
  rw [← List.singleton_append, passesOver_append, hone]
  rfl

/-! ### Strings and comments -/

/-- Inside of something, no character stands for itself. -/
theorem stopsAt_of_inside {region : Region} (offset depth : Nat) (c : Char)
    (h : region.isInside = true) : (Scan.mk offset depth region).stopsAt stops c = false := by
  cases region <;> simp_all [stopsAt, Region.isInside]

/-- A string runs to its closing quote. -/
theorem past_of_closeQuote? {quote : Char} {text inside after : List Char} (stops : List Char)
    (offset depth start : Nat) (h : closeQuote? quote text = some (inside, after)) :
    (Scan.mk offset depth (.string quote start)).PassesOver stops inside ∧
      (Scan.mk offset depth (.string quote start)).past inside =
        ⟨offset + size inside, depth, .plain⟩ := by
  fun_induction closeQuote? quote text generalizing inside after offset with
  | case1 => cases h
  | case2 => cases h
  | case3 c rest ih =>
    obtain ⟨⟨tail, last⟩, htail, heq⟩ := Option.map_eq_some_iff.mp h
    cases heq
    obtain ⟨hpasses, hpast⟩ := ih (offset + ('\\').utf8Size + c.utf8Size) htail
    refine ⟨?_, ?_⟩
    · rw [passesOver_cons, passesOver_cons]
      exact ⟨stopsAt_of_inside _ _ _ rfl, stopsAt_of_inside _ _ _ rfl, hpasses⟩
    · refine hpast.trans ?_
      simp [Nat.add_assoc]
  | case4 => cases h
  | case5 c rest hlone hescape hbreak hquote =>
    cases h
    have hc : c ≠ '\\' := by rintro rfl; cases rest <;> simp_all
    have hn : c ≠ '\n' := fun heq => hbreak heq
    refine ⟨?_, ?_⟩
    · rw [passesOver_cons]
      exact ⟨stopsAt_of_inside _ _ _ rfl, passesOver_nil⟩
    · simp_all [step, within]
  | case6 c rest hlone hescape hbreak hquote ih =>
    obtain ⟨⟨tail, last⟩, htail, heq⟩ := Option.map_eq_some_iff.mp h
    cases heq
    have hc : c ≠ '\\' := by rintro rfl; cases rest <;> simp_all
    have hn : c ≠ '\n' := fun heq => hbreak heq
    have hstep : (Scan.mk offset depth (.string quote start)).step c =
        ⟨offset + c.utf8Size, depth, .string quote start⟩ := by
      simp_all [step, within]
    obtain ⟨hpasses, hpast⟩ := ih (offset + c.utf8Size) htail
    rw [passesOver_cons, past_cons, hstep, hpast]
    exact ⟨⟨stopsAt_of_inside _ _ _ rfl, hpasses⟩, by simp [Nat.add_assoc]⟩

/-- Nothing ends a torn string. -/
theorem past_torn (stops : List Char) (offset depth start : Nat) (text : List Char) :
    (Scan.mk offset depth (.torn start)).PassesOver stops text ∧
      ((Scan.mk offset depth (.torn start)).past text).fault? =
        some ⟨.unterminatedString, start⟩ := by
  induction text generalizing offset with
  | nil => exact ⟨passesOver_nil, rfl⟩
  | cons c rest ih =>
    obtain ⟨hpasses, hfault⟩ := ih (offset + c.utf8Size)
    rw [passesOver_cons]
    exact ⟨⟨stopsAt_of_inside _ _ _ rfl, hpasses⟩, hfault⟩

/-- A string without its closing quote is what the scan ends inside of. -/
theorem past_of_closeQuote?_eq_none {quote : Char} {text : List Char} (stops : List Char)
    (offset depth start : Nat) (h : closeQuote? quote text = none) :
    (Scan.mk offset depth (.string quote start)).PassesOver stops text ∧
      ((Scan.mk offset depth (.string quote start)).past text).fault? =
        some ⟨.unterminatedString, start⟩ := by
  fun_induction closeQuote? quote text generalizing offset with
  | case1 => exact ⟨passesOver_nil, rfl⟩
  | case2 =>
    rw [passesOver_cons]
    exact ⟨⟨stopsAt_of_inside _ _ _ rfl, passesOver_nil⟩, rfl⟩
  | case3 c rest ih =>
    obtain ⟨hpasses, hfault⟩ :=
      ih (offset + ('\\').utf8Size + c.utf8Size) (Option.map_eq_none_iff.mp h)
    rw [passesOver_cons, passesOver_cons]
    exact ⟨⟨stopsAt_of_inside _ _ _ rfl, stopsAt_of_inside _ _ _ rfl, hpasses⟩,
      hfault⟩
  | case4 rest =>
    obtain ⟨hpasses, hfault⟩ := past_torn stops (offset + ('\n').utf8Size) depth start rest
    rw [passesOver_cons]
    exact ⟨⟨stopsAt_of_inside _ _ _ rfl, hpasses⟩, hfault⟩
  | case5 => cases h
  | case6 c rest hlone hescape hbreak hquote ih =>
    have hc : c ≠ '\\' := by rintro rfl; cases rest <;> simp_all
    have hn : c ≠ '\n' := fun heq => hbreak heq
    have hstep : (Scan.mk offset depth (.string quote start)).step c =
        ⟨offset + c.utf8Size, depth, .string quote start⟩ := by
      simp_all [step, within]
    rw [passesOver_cons, past_cons, hstep]
    obtain ⟨hpasses, hfault⟩ := ih (offset + c.utf8Size) (Option.map_eq_none_iff.mp h)
    exact ⟨⟨stopsAt_of_inside _ _ _ rfl, hpasses⟩, hfault⟩

/-- Inside a comment that the text ahead does not close at once. -/
def InComment (start : Nat) (rest : List Char) (region : Region) : Prop :=
  region = .comment start ∨ region = .star start ∧ rest.head? ≠ some '/'

/-- Inside a comment, a character that does not close it is passed. -/
theorem InComment.step {start : Nat} {rest : List Char} {region : Region} (stops : List Char)
    (offset depth : Nat) (h : InComment start (c :: rest) region)
    (hclose : c = '*' → rest.head? ≠ some '/') :
    (Scan.mk offset depth region).stopsAt stops c = false ∧
      ∃ region', (Scan.mk offset depth region).step c = ⟨offset + c.utf8Size, depth, region'⟩ ∧
        InComment start rest region' := by
  by_cases hstar : c = '*'
  · subst hstar
    rcases h with rfl | ⟨rfl, -⟩
    · exact ⟨stopsAt_of_inside _ _ _ rfl, .star start, rfl, .inr ⟨rfl, hclose rfl⟩⟩
    · exact ⟨stopsAt_of_inside _ _ _ rfl, .star start, rfl, .inr ⟨rfl, hclose rfl⟩⟩
  · rcases h with rfl | ⟨rfl, hhead⟩
    · refine ⟨stopsAt_of_inside _ _ _ rfl, .comment start, ?_, .inl rfl⟩
      simp [Scan.step, within, hstar]
    · refine ⟨stopsAt_of_inside _ _ _ rfl, .comment start, ?_, .inl rfl⟩
      have hslash : c ≠ '/' := by simpa using hhead
      simp [Scan.step, within, hstar, hslash]

/-- A comment runs to the first star with a slash behind it. -/
theorem past_of_closeComment? {text inside after : List Char} {region : Region} {start : Nat}
    (stops : List Char) (offset depth : Nat) (h : closeComment? text = some (inside, after))
    (hregion : InComment start text region) :
    (Scan.mk offset depth region).PassesOver stops inside ∧
      (Scan.mk offset depth region).past inside = ⟨offset + size inside, depth, .plain⟩ := by
  fun_induction closeComment? text generalizing inside after offset region with
  | case1 => cases h
  | case2 rest =>
    cases h
    have hstep : (Scan.mk offset depth region).step '*' =
        ⟨offset + ('*').utf8Size, depth, .star start⟩ := by
      rcases hregion with rfl | ⟨rfl, -⟩ <;> rfl
    rw [passesOver_cons, past_cons, hstep, passesOver_cons]
    refine ⟨⟨?_, stopsAt_of_inside _ _ _ rfl, passesOver_nil⟩, rfl⟩
    rcases hregion with rfl | ⟨rfl, -⟩ <;> exact stopsAt_of_inside _ _ _ rfl
  | case3 c rest hend ih =>
    obtain ⟨⟨tail, last⟩, htail, heq⟩ := Option.map_eq_some_iff.mp h
    cases heq
    have hclose : c = '*' → rest.head? ≠ some '/' := by
      rintro rfl hslash
      cases rest <;> simp_all
    obtain ⟨hstop, region', hstep, hregion'⟩ := hregion.step stops offset depth hclose
    obtain ⟨hpasses, hpast⟩ := ih (offset + c.utf8Size) htail hregion'
    rw [passesOver_cons, past_cons, hstep, hpast]
    exact ⟨⟨hstop, hpasses⟩, by simp [Nat.add_assoc]⟩

/-- A comment that is not closed is what the scan ends inside of. -/
theorem past_of_closeComment?_eq_none {text : List Char} {region : Region} {start : Nat}
    (stops : List Char) (offset depth : Nat) (h : closeComment? text = none)
    (hregion : InComment start text region) :
    (Scan.mk offset depth region).PassesOver stops text ∧
      ((Scan.mk offset depth region).past text).fault? =
        some ⟨.unterminatedComment, start⟩ := by
  fun_induction closeComment? text generalizing offset region with
  | case1 =>
    refine ⟨passesOver_nil, ?_⟩
    rcases hregion with rfl | ⟨rfl, -⟩ <;> rfl
  | case2 => cases h
  | case3 c rest hend ih =>
    have hclose : c = '*' → rest.head? ≠ some '/' := by
      rintro rfl hslash
      cases rest <;> simp_all
    obtain ⟨hstop, region', hstep, hregion'⟩ := hregion.step stops offset depth hclose
    obtain ⟨hpasses, hfault⟩ := ih (offset + c.utf8Size) (Option.map_eq_none_iff.mp h) hregion'
    rw [passesOver_cons, past_cons, hstep]
    exact ⟨⟨hstop, hpasses⟩, hfault⟩

end Scan

/-! ### Lexemes -/

/-- Characters that neither begin a string, a comment or an escape nor count as brackets. -/
def Neutral (stops : List Char) : Prop :=
  ∀ c ∈ stops, isQuote c = false ∧ c ∉ ['\\', '/', '(', ')', '[', ']']

theorem Neutral.plain {stops : List Char} (h : Neutral stops) : Plain stops := by
  intro c hmem
  obtain ⟨hquote, hothers⟩ := h c hmem
  simp only [List.mem_cons, not_or] at hothers
  exact ⟨hothers.1, hothers.2.1, hquote⟩

theorem neutral_braces : Neutral ['{', '}'] := by
  intro c hmem
  simp only [List.mem_cons, List.not_mem_nil, or_false] at hmem
  rcases hmem with rfl | rfl <;> decide

namespace Scan

variable {scan : Scan} {stops text front back : List Char} {c : Char} {cur next : Cursor}
  {lexeme : Lexeme}

/-- A scan is between two lexemes, or at the end of a text. -/
def Ready (scan : Scan) (ahead : List Char) : Prop :=
  match scan.region with
  | .plain => True
  | .slash _ => ahead.head? ≠ some '*'
  | .escape => ahead = []
  | _ => False

theorem Ready.step_eq (h : scan.Ready (c :: text)) : scan.step c = scan.begin c := by
  obtain ⟨offset, depth, region⟩ := scan
  cases region <;> simp_all [Ready, step]

theorem Ready.stopsAt_eq (h : scan.Ready (c :: text)) :
    scan.stopsAt stops c = (scan.depth == 0 && stops.contains c) := by
  obtain ⟨offset, depth, region⟩ := scan
  cases region <;> simp_all [Ready, stopsAt]

theorem Ready.fault?_eq (h : scan.Ready text) : scan.fault? = none := by
  obtain ⟨offset, depth, region⟩ := scan
  cases region <;> simp_all [Ready, fault?]

theorem begin_of_isQuote (scan : Scan) (h : isQuote c = true) :
    scan.begin c = ⟨scan.offset + c.utf8Size, scan.depth, .string c scan.offset⟩ := by
  simp only [isQuote, Bool.or_eq_true, beq_iff_eq] at h
  rcases h with rfl | rfl <;> rfl

theorem begin_of_plain (scan : Scan) (hescape : c ≠ '\\') (hquote : isQuote c = false) :
    scan.begin c = ⟨scan.offset + c.utf8Size, (Lexeme.plain c).depthAfter scan.depth,
      if c = '/' then .slash scan.offset else .plain⟩ := by
  simp only [isQuote, Bool.or_eq_false_iff, beq_eq_false_iff_ne] at hquote
  simp [begin, depthBehind, regionBehind, Lexeme.depthAfter, hescape, hquote.1, hquote.2]

/-- Over a lexeme, a scan gets from one place between lexemes to the next one. -/
theorem past_lexeme (stops : List Char) (h : cur.lexeme? = .ok (some (lexeme, next)))
    (hready : scan.Ready cur.rest) (hoffset : scan.offset = cur.offset) :
    ∃ region, scan.past lexeme.text = ⟨next.offset, lexeme.depthAfter scan.depth, region⟩ ∧
      Ready ⟨next.offset, lexeme.depthAfter scan.depth, region⟩ next.rest ∧
      (¬ (scan.depth = 0 ∧ lexeme.isOneOf stops = true) → Neutral stops →
        scan.PassesOver stops lexeme.text) := by
  obtain ⟨hbefore, hrest, hnext⟩ := Cursor.lexeme?_eq_ok_some_iff.mp h
  obtain ⟨offset, rest⟩ := next
  dsimp only at hbefore hrest hnext ⊢
  rw [hrest] at hready
  rw [hnext, ← hoffset]
  have hother {d : Char} (hstops : Neutral stops)
      (hd : isQuote d = true ∨ d ∈ ['\\', '/', '(', ')', '[', ']']) : d ∉ stops := fun hmem => by
    have := hstops d hmem
    grind
  cases hbefore with
  | @quoted quote inside _ hquote hclose =>
    obtain ⟨hpasses, hpast⟩ := past_of_closeQuote? stops (scan.offset + quote.utf8Size)
      scan.depth scan.offset hclose
    rw [Lexeme.text, past_cons, hready.step_eq, begin_of_isQuote scan hquote, hpast]
    refine ⟨.plain, by simp [Nat.add_assoc, Lexeme.depthAfter], trivial, fun _ hstops => ?_⟩
    rw [passesOver_cons, hready.step_eq, begin_of_isQuote scan hquote, hready.stopsAt_eq]
    exact ⟨by simp [hother hstops (.inl hquote)], hpasses⟩
  | @comment inside _ hclose =>
    obtain ⟨hpasses, hpast⟩ := past_of_closeComment? stops
      (scan.offset + ('/').utf8Size + ('*').utf8Size) scan.depth hclose
      (.inl (rfl : Region.comment scan.offset = _))
    have hopen : (scan.step '/').step '*' =
        ⟨scan.offset + ('/').utf8Size + ('*').utf8Size, scan.depth, .comment scan.offset⟩ := by
      rw [hready.step_eq]
      rfl
    rw [Lexeme.text, past_cons, past_cons, hopen, hpast]
    refine ⟨.plain, by simp [Nat.add_assoc, Lexeme.depthAfter], trivial, fun _ hstops => ?_⟩
    rw [passesOver_cons, passesOver_cons, hopen, hready.stopsAt_eq]
    refine ⟨by simp [hother (d := '/') hstops (by simp)], ?_, hpasses⟩
    rw [hready.step_eq]
    simp [begin, regionBehind, stopsAt]
  | escape c =>
    rw [Lexeme.text, past_cons, past_cons, past_nil, hready.step_eq]
    have hprotect : (scan.begin '\\').step c =
        ⟨scan.offset + ('\\').utf8Size + c.utf8Size, scan.depth, .plain⟩ := rfl
    rw [hprotect]
    refine ⟨.plain, by simp [Nat.add_assoc, Lexeme.depthAfter], trivial, fun _ hstops => ?_⟩
    rw [passesOver_cons, passesOver_cons, hready.step_eq, hready.stopsAt_eq]
    exact ⟨by simp [hother (d := '\\') hstops (by simp)],
      stopsAt_of_inside _ _ _ rfl, passesOver_nil⟩
  | backslash =>
    rw [Lexeme.text, past_cons, past_nil, hready.step_eq]
    refine ⟨.escape, rfl, rfl, fun _ hstops => ?_⟩
    rw [passesOver_cons, hready.stopsAt_eq]
    exact ⟨by simp [hother (d := '\\') hstops (by simp)], passesOver_nil⟩
  | @plain c _ hescape hquote hcomment =>
    rw [Lexeme.text, past_cons, past_nil, hready.step_eq, begin_of_plain scan hescape hquote]
    refine ⟨if c = '/' then .slash scan.offset else .plain, by simp, ?_, fun hpass _ => ?_⟩
    · by_cases hslash : c = '/'
      · simpa [Ready, hslash] using hcomment hslash
      · simp [Ready, hslash]
    · rw [passesOver_cons, hready.stopsAt_eq]
      exact ⟨by simpa [Lexeme.isOneOf] using hpass, passesOver_nil⟩

/-- A scan ends inside of a string or a comment that cannot be read, without a stop. -/
theorem past_of_lexeme?_error {fault : Fault} (h : cur.lexeme? = .error fault)
    (hready : scan.Ready cur.rest) (hoffset : scan.offset = cur.offset) (hstops : Neutral stops) :
    scan.PassesOver stops cur.rest ∧ (scan.past cur.rest).fault? = some fault := by
  unfold Cursor.lexeme? Cursor.fail at h
  split at h
  · cases h
  · rename_i rest hrest
    split at h <;> cases h
    rename_i hclose
    rw [hrest] at hready ⊢
    have hopen : (scan.step '/').step '*' =
        ⟨scan.offset + ('/').utf8Size + ('*').utf8Size, scan.depth, .comment scan.offset⟩ := by
      rw [hready.step_eq]
      rfl
    obtain ⟨hpasses, hfault⟩ := past_of_closeComment?_eq_none stops
      (scan.offset + ('/').utf8Size + ('*').utf8Size) scan.depth hclose
      (.inl (rfl : Region.comment scan.offset = _))
    have hmem : '/' ∉ stops := fun hmem => by simpa using (hstops _ hmem).2
    rw [passesOver_cons, passesOver_cons, past_cons, past_cons, hopen, hready.stopsAt_eq,
      ← hoffset]
    refine ⟨⟨by simp [hmem], ?_, hpasses⟩, hfault⟩
    rw [hready.step_eq]
    simp [begin, regionBehind, stopsAt]
  · cases h
  · cases h
  · rename_i c rest _ _ _ hrest
    split at h
    · rename_i hquote
      split at h <;> cases h
      rename_i hclose
      rw [hrest] at hready ⊢
      obtain ⟨hpasses, hfault⟩ := past_of_closeQuote?_eq_none stops (scan.offset + c.utf8Size)
        scan.depth scan.offset hclose
      have hmem : c ∉ stops := fun hmem => by simp [(hstops _ hmem).1] at hquote
      rw [passesOver_cons, past_cons, hready.step_eq, begin_of_isQuote scan hquote,
        hready.stopsAt_eq, ← hoffset]
      exact ⟨⟨by simp [hmem], hpasses⟩, hfault⟩
    · cases h

/-! ### Up to a stop -/

theorem Divides.of_end (hpasses : scan.PassesOver stops text) : scan.Divides stops text text [] :=
  ⟨List.append_nil _, hpasses, nofun⟩

theorem Divides.behind {taken ahead : List Char} (front : List Char)
    (hpasses : scan.PassesOver stops front)
    (h : Divides stops (scan.past front) text taken ahead) :
    scan.Divides stops (front ++ text) (front ++ taken) ahead where
  append_eq := by rw [List.append_assoc, h.append_eq]
  passed := passesOver_append.mpr ⟨hpasses, h.passed⟩
  stopped := by rw [past_append]; exact h.stopped

/-- A text is divided in one way. -/
theorem Divides.unique {taken ahead taken' ahead' : List Char}
    (h : Divides stops scan text taken ahead) (h' : Divides stops scan text taken' ahead') :
    taken = taken' ∧ ahead = ahead' := by
  have heq := h.append_eq.trans h'.append_eq.symm
  rcases List.append_eq_append_iff.mp heq with ⟨inside, rfl, rfl⟩ | ⟨inside, rfl, rfl⟩
  · cases inside with
    | nil => exact ⟨by simp, rfl⟩
    | cons c inside =>
      have hpass := h'.passed taken c inside rfl
      rw [h.stopped c (inside ++ ahead') rfl] at hpass
      cases hpass
  · cases inside with
    | nil => exact ⟨by simp, rfl⟩
    | cons c inside =>
      have hpass := h.passed taken' c inside rfl
      rw [h'.stopped c (inside ++ ahead) rfl] at hpass
      cases hpass

/-- A scan that stops is not inside of a string or a comment. -/
theorem fault?_of_stopsAt (h : scan.stopsAt stops c = true) : scan.fault? = none := by
  obtain ⟨offset, depth, region⟩ := scan
  cases region <;> simp_all [stopsAt, fault?]

/-- Behind a lexeme at which a walk goes on, the scan goes on too. -/
theorem exists_scan_behind_lexeme (hstops : Neutral stops)
    (h : cur.lexeme? = .ok (some (lexeme, next))) (hready : scan.Ready cur.rest)
    (hoffset : scan.offset = cur.offset)
    (hpass : ¬ (scan.depth = 0 ∧ lexeme.isOneOf stops = true)) :
    ∃ scan' : Scan, scan'.Ready next.rest ∧ scan'.offset = next.offset ∧
      scan'.depth = lexeme.depthAfter scan.depth ∧
      ∀ taken ahead, scan'.Divides stops next.rest taken ahead →
        scan.Divides stops cur.rest (lexeme.text ++ taken) ahead ∧
          scan.past (lexeme.text ++ taken) = scan'.past taken := by
  obtain ⟨region, hpast, hready', hpasses⟩ := past_lexeme stops h hready hoffset
  refine ⟨_, hready', rfl, rfl, fun taken ahead hdivides => ⟨?_, by rw [past_append, hpast]⟩⟩
  rw [(Cursor.reads_lexeme? h).rest_eq]
  exact Divides.behind _ (hpasses hpass hstops) (hpast ▸ hdivides)

/-- A walk over lexemes ends where a scan over the characters stops first. -/
theorem upTo_eq_of_ready {depth : Nat} (hstops : Neutral stops) (hready : scan.Ready cur.rest)
    (hoffset : scan.offset = cur.offset) (hdepth : scan.depth = depth) :
    ∃ taken ahead, scan.Divides stops cur.rest taken ahead ∧
      cur.upTo stops depth =
        match (scan.past taken).fault? with
        | some fault => .error fault
        | none => .ok (taken, cur.pass taken ahead) := by
  fun_induction Cursor.upTo stops depth cur generalizing scan with
  | case1 depth cur fault hlexeme =>
    obtain ⟨hpasses, hfault⟩ := past_of_lexeme?_error hlexeme hready hoffset hstops
    exact ⟨cur.rest, [], .of_end hpasses, by rw [hfault]⟩
  | case2 depth cur hnone =>
    obtain ⟨offset, rest⟩ := cur
    obtain rfl : rest = [] := Cursor.lexeme?_eq_ok_none_iff.mp hnone
    refine ⟨[], [], .of_end passesOver_nil, ?_⟩
    rw [past_nil, hready.fault?_eq]
    rfl
  | case3 depth cur lexeme next hlexeme hstop =>
    simp only [Bool.and_eq_true, beq_iff_eq] at hstop
    refine ⟨[], cur.rest, ⟨rfl, passesOver_nil, fun c rest hrest => ?_⟩, ?_⟩
    · rw [hrest] at hready
      obtain ⟨d, rest', hrest', hmem⟩ := Cursor.lexeme?_isOneOf hlexeme hstop.2
      obtain ⟨rfl, -⟩ := List.cons.inj (hrest.symm.trans hrest')
      rw [past_nil, hready.stopsAt_eq]
      simp [hdepth, hstop.1, hmem]
    · rw [past_nil, hready.fault?_eq]
      rfl
  | case4 depth cur lexeme next hlexeme hpass fault htail ih =>
    obtain ⟨scan', hready', hoffset', hdepth', hbehind⟩ := exists_scan_behind_lexeme hstops hlexeme
      hready hoffset (by simpa [hdepth] using hpass)
    obtain ⟨taken, ahead, hdivides, heq⟩ := ih hready' hoffset' (by rw [hdepth', hdepth])
    obtain ⟨hdivides', hpast⟩ := hbehind taken ahead hdivides
    refine ⟨lexeme.text ++ taken, ahead, hdivides', ?_⟩
    rw [htail] at heq
    rw [hpast]
    split at heq <;> cases heq
    rfl
  | case5 depth cur lexeme next hlexeme hpass tail last htail ih =>
    obtain ⟨scan', hready', hoffset', hdepth', hbehind⟩ := exists_scan_behind_lexeme hstops hlexeme
      hready hoffset (by simpa [hdepth] using hpass)
    obtain ⟨taken, ahead, hdivides, heq⟩ := ih hready' hoffset' (by rw [hdepth', hdepth])
    obtain ⟨hdivides', hpast⟩ := hbehind taken ahead hdivides
    refine ⟨lexeme.text ++ taken, ahead, hdivides', ?_⟩
    rw [htail] at heq
    rw [hpast]
    split at heq <;> cases heq
    simp [Cursor.pass, (Cursor.reads_lexeme? hlexeme).offset_eq, Nat.add_assoc]

theorem upTo_eq (hstops : Neutral stops) (cur : Cursor) :
    ∃ taken ahead, (start cur.offset).Divides stops cur.rest taken ahead ∧
      cur.upTo stops 0 =
        match ((start cur.offset).past taken).fault? with
        | some fault => .error fault
        | none => .ok (taken, cur.pass taken ahead) :=
  upTo_eq_of_ready hstops trivial rfl rfl

theorem divides_of_upTo {stop : Cursor} (hstops : Neutral stops)
    (h : cur.upTo stops 0 = .ok (text, stop)) :
    (start cur.offset).Divides stops cur.rest text stop.rest ∧
      ((start cur.offset).past text).fault? = none := by
  obtain ⟨taken, ahead, hdivides, heq⟩ := upTo_eq hstops cur
  rw [h] at heq
  split at heq <;> cases heq
  rename_i hfault
  exact ⟨hdivides, hfault⟩

theorem passesOver_of_upTo {fault : Fault} (hstops : Neutral stops)
    (h : cur.upTo stops 0 = .error fault) :
    (start cur.offset).PassesOver stops cur.rest ∧
      ((start cur.offset).past cur.rest).fault? = some fault := by
  obtain ⟨taken, ahead, hdivides, heq⟩ := upTo_eq hstops cur
  rw [h] at heq
  split at heq <;> cases heq
  rename_i hfault
  cases ahead with
  | nil =>
    rw [← hdivides.append_eq, List.append_nil]
    exact ⟨hdivides.passed, hfault⟩
  | cons c rest =>
    rw [fault?_of_stopsAt (hdivides.stopped c rest rfl)] at hfault
    cases hfault

/-! ### Blocks -/

@[simp] theorem balance_nil (scan : Scan) : scan.balance [] = 0 := rfl

theorem balance_append (scan : Scan) (front back : List Char) :
    scan.balance (front ++ back) = scan.balance front + (scan.past front).balance back := by
  induction front generalizing scan with
  | nil => simp
  | cons c front ih => simp [balance, ih, Int.add_assoc]

theorem balance_of_passesOver (h : scan.PassesOver ['{', '}'] text) : scan.balance text = 0 := by
  induction text generalizing scan with
  | nil => rfl
  | cons c rest ih =>
    obtain ⟨hpass, hrest⟩ := passesOver_cons.mp h
    rw [balance, ih hrest, hpass]
    rfl

/-- The braces of a part balance to a level, and those of no shorter part do. -/
structure Reaches (level : Int) (scan : Scan) (text taken ahead : List Char) : Prop where
  append_eq : taken ++ ahead = text
  reached : scan.balance taken = level
  first : ∀ front c back, taken = front ++ c :: back → scan.balance front ≠ level

theorem Reaches.unique {level : Int} {taken ahead taken' ahead' : List Char}
    (h : Reaches level scan text taken ahead) (h' : Reaches level scan text taken' ahead') :
    taken = taken' ∧ ahead = ahead' := by
  have heq := h.append_eq.trans h'.append_eq.symm
  rcases List.append_eq_append_iff.mp heq with ⟨inside, rfl, rfl⟩ | ⟨inside, rfl, rfl⟩
  · cases inside with
    | nil => exact ⟨by simp, rfl⟩
    | cons c inside => exact absurd h.reached (h'.first taken c inside rfl)
  · cases inside with
    | nil => exact ⟨by simp, rfl⟩
    | cons c inside => exact absurd h'.reached (h.first taken' c inside rfl)

theorem offset_step (scan : Scan) (c : Char) : (scan.step c).offset = scan.offset + c.utf8Size := by
  obtain ⟨offset, depth, region⟩ := scan
  cases region <;> simp only [step, begin, within]
  split <;> rfl

theorem offset_past (scan : Scan) (text : List Char) :
    (scan.past text).offset = scan.offset + size text := by
  induction text generalizing scan with
  | nil => rfl
  | cons c rest ih => rw [past_cons, ih, offset_step, Text.size_cons, Nat.add_assoc]

/-- Behind a brace at which it stops, a scan begins anew. -/
theorem step_eq_start (h : scan.stopsAt ['{', '}'] c = true) :
    scan.step c = start (scan.offset + c.utf8Size) := by
  obtain ⟨offset, depth, region⟩ := scan
  simp only [stopsAt, Bool.and_eq_true, beq_iff_eq, List.contains_iff_mem, List.mem_cons,
    List.not_mem_nil, or_false] at h
  obtain ⟨⟨rfl, rfl | rfl⟩, hregion⟩ := h <;>
    cases region <;> first | rfl | simp at hregion

theorem balance_behind_stop {taken : List Char} (hpasses : scan.PassesOver ['{', '}'] taken)
    (hstop : (scan.past taken).stopsAt ['{', '}'] c = true) (inside : List Char) :
    scan.balance (taken ++ c :: inside) =
      weight c + ((scan.past taken).step c).balance inside := by
  rw [balance_append, balance_of_passesOver hpasses, balance, if_pos hstop, Int.zero_add]

/-- Up to a stop the balance is zero, and behind it the stop counts. -/
theorem balance_ne_of_stop {taken rest : List Char} {level : Int} (hlevel : level ≠ 0)
    (hpasses : scan.PassesOver ['{', '}'] taken)
    (hstop : (scan.past taken).stopsAt ['{', '}'] c = true)
    (heq : front ++ back = taken ++ c :: rest)
    (hinside : ∀ inside, inside ++ back = rest →
      ((scan.past taken).step c).balance inside ≠ level - weight c) :
    scan.balance front ≠ level := by
  rcases List.append_eq_append_iff.mp heq with ⟨inside, rfl, -⟩ | ⟨inside, rfl, hrest⟩
  · rw [balance_of_passesOver (passesOver_append.mp hpasses).1]
    exact hlevel.symm
  · cases inside with
    | nil =>
      rw [List.append_nil, balance_of_passesOver hpasses]
      exact hlevel.symm
    | cons d inside =>
      obtain ⟨rfl, rfl⟩ := List.cons.inj hrest
      rw [balance_behind_stop hpasses hstop]
      have := hinside inside rfl
      omega

/-- The walk that closes a block ends where the braces of one scan balance to the level of the
blocks that are open, and fails if they never do. -/
def ClosesByBalance (brace depth : Nat) (cur : Cursor) : Prop :=
  (∃ taken ahead, Reaches (-depth) (start cur.offset) cur.rest taken ahead ∧
    cur.closeBlock brace depth = .ok (taken, cur.pass taken ahead)) ∨
  (∀ front back, front ++ back = cur.rest → (start cur.offset).balance front ≠ -depth) ∧
    cur.closeBlock brace depth =
      .error (((start cur.offset).past cur.rest).fault?.getD ⟨.unterminatedBlock, brace⟩)

/-- No part balances where the scan never stops. -/
theorem balance_ne_of_passesOver {outer : Nat} (back : List Char)
    (h : scan.PassesOver ['{', '}'] (front ++ back)) :
    scan.balance front ≠ -(outer + 1 : Nat) := by
  rw [balance_of_passesOver (passesOver_append.mp h).1]
  omega

/-- Behind a brace at which the walk begins anew, the scan goes on. -/
theorem closesByBalance_behind {brace outer offset : Nat} {taken rest : List Char}
    (h : cur.upTo ['{', '}'] 0 = .ok (taken, ⟨offset, c :: rest⟩))
    (ih : ClosesByBalance brace (if c == '{' then outer + 2 else outer)
      ⟨offset + size [c], rest⟩) :
    ClosesByBalance brace (outer + 1) cur := by
  obtain ⟨hdivides, -⟩ := divides_of_upTo neutral_braces h
  have hrest : cur.rest = taken ++ c :: rest := hdivides.append_eq.symm
  have hpasses := hdivides.passed
  have hstop := hdivides.stopped c rest rfl
  have hoffset : offset = cur.offset + size taken := (Cursor.reads_upTo h).offset_eq
  have hbegin : ((start cur.offset).past taken).step c = start (offset + size [c]) := by
    rw [step_eq_start hstop, offset_past, hoffset]
    simp [start]
  have hlevel : -((if c == '{' then outer + 2 else outer : Nat) : Int) =
      -(outer + 1 : Nat) - weight c := by
    unfold weight
    by_cases hc : c = '{' <;> simp only [hc, beq_self_eq_true, beq_iff_eq, if_true, if_false] <;>
      omega
  have hzero : -((outer + 1 : Nat) : Int) ≠ 0 := by omega
  rw [ClosesByBalance, Cursor.closeBlock_of_upTo h]
  rcases ih with ⟨tail, ahead, hreaches, heq⟩ | ⟨hnever, heq⟩
  · rw [hlevel, ← hbegin] at hreaches
    refine .inl ⟨taken ++ c :: tail, ahead, ⟨?_, ?_, fun front d back hfront => ?_⟩, ?_⟩
    · rw [hrest, List.append_assoc, List.cons_append, hreaches.append_eq]
    · rw [balance_behind_stop hpasses hstop, hreaches.reached]
      omega
    · exact balance_ne_of_stop hzero hpasses hstop hfront.symm fun inside hinside =>
        hreaches.first inside d back hinside.symm
    · rw [heq]
      simp [Cursor.pass, hoffset, Nat.add_assoc]
  · rw [hlevel, ← hbegin] at hnever
    refine .inr ⟨fun front back hfront => ?_, ?_⟩
    · exact balance_ne_of_stop hzero hpasses hstop (hfront.trans hrest) fun inside hinside =>
        hnever inside back hinside
    · rw [heq, hrest, past_append, past_cons, hbegin]

theorem closesByBalance (brace depth : Nat) (cur : Cursor) : ClosesByBalance brace depth cur := by
  induction depth, cur using Cursor.closeBlock.induct brace with
  | case1 cur =>
    exact .inl ⟨[], cur.rest, ⟨rfl, rfl, by simp⟩, by rw [Cursor.closeBlock.eq_def]; rfl⟩
  | case2 cur outer fault hfront =>
    obtain ⟨hpasses, hfault⟩ := passesOver_of_upTo neutral_braces hfront
    refine .inr ⟨fun front back heq => balance_ne_of_passesOver back (heq ▸ hpasses), ?_⟩
    rw [hfault, Cursor.closeBlock.eq_def]
    dsimp only
    split <;> simp_all
  | case3 cur outer front offset c rest hfront fault htail ih =>
    rw [dite_eq_ite] at ih
    exact closesByBalance_behind hfront ih
  | case4 cur outer front offset c rest hfront tail last htail ih =>
    rw [dite_eq_ite] at ih
    exact closesByBalance_behind hfront ih
  | case5 cur outer front offset hfront =>
    obtain ⟨hdivides, hfault⟩ := divides_of_upTo neutral_braces hfront
    obtain rfl : front = cur.rest := by simpa using hdivides.append_eq
    refine .inr ⟨fun before back heq =>
      balance_ne_of_passesOver back (heq ▸ hdivides.passed), ?_⟩
    rw [hfault, Cursor.closeBlock.eq_def]
    dsimp only
    split <;> simp_all

/-- The inside of a block is closed where the whole block balances. -/
theorem balances_iff {offset : Nat} {taken ahead : List Char} :
    (start offset).Balances ('{' :: text) taken ahead ↔
      ∃ tail, taken = '{' :: tail ∧ Reaches (-1) (start (offset + size ['{'])) text tail ahead := by
  have hstop : (start offset).stopsAt ['{', '}'] '{' = true := rfl
  have hbalance (inside : List Char) : (start offset).balance ('{' :: inside) =
      1 + (start (offset + size ['{'])).balance inside := by
    rw [balance, if_pos hstop]
    rfl
  constructor
  · rintro ⟨happend, hne, hbalanced, hshortest⟩
    obtain ⟨c, tail, rfl⟩ := List.exists_cons_of_ne_nil hne
    obtain ⟨rfl, rfl⟩ := List.cons.inj happend
    rw [hbalance] at hbalanced
    refine ⟨tail, rfl, rfl, by omega, fun front c back htail hreached => ?_⟩
    refine hshortest ('{' :: front) c back (by rw [htail]; rfl) (by simp) ?_
    rw [hbalance, hreached]
    rfl
  · rintro ⟨tail, rfl, happend, hreached, hfirst⟩
    refine ⟨by rw [← happend]; rfl, by simp, by rw [hbalance, hreached]; rfl, ?_⟩
    intro front c back htail hne hzero
    obtain ⟨d, front, rfl⟩ := List.exists_cons_of_ne_nil hne
    obtain ⟨rfl, hinside⟩ := List.cons.inj htail
    rw [hbalance] at hzero
    exact hfirst front c back hinside (by omega)

end Scan

open Scan (start)

/-- **What the walks over lexemes find is what one scan over the characters finds.** A text is
divided at the first of `stops` at which the scan stops, or at its end. Reading up to `stops`
divides it there, but fails exactly if the scan ends inside a string or a comment, at the place
where that begins. A block is the shortest text over which the braces balance at which the scan
stops; if there is none, what is reported is the string or the comment that the scan over all of
the text ends inside of, or else the opening brace. -/
theorem extents_of_scan {stops : List Char} (hstops : Neutral stops) (cur : Cursor) :
    (∃ taken ahead, (start cur.offset).Divides stops cur.rest taken ahead) ∧
    (∀ taken ahead, (start cur.offset).Divides stops cur.rest taken ahead →
      cur.upTo stops 0 =
        match ((start cur.offset).past taken).fault? with
        | some fault => .error fault
        | none => .ok (taken, cur.pass taken ahead)) ∧
    (∀ fault, cur.upTo stops 0 = .error fault → cur.Reports [] fault) ∧
    (cur.rest.head? = some '{' →
      (∀ text last, cur.block = .ok (text, last) ↔
        (start cur.offset).Balances cur.rest text last.rest ∧ Reads cur text last) ∧
      ∀ fault, cur.block = .error fault ↔
        (∀ taken ahead, ¬ (start cur.offset).Balances cur.rest taken ahead) ∧
        fault =
          ((start cur.offset).past cur.rest).fault?.getD ⟨.unterminatedBlock, cur.offset⟩) := by
  obtain ⟨taken, ahead, hdivides, heq⟩ := Scan.upTo_eq hstops cur
  refine ⟨⟨taken, ahead, hdivides⟩, fun taken' ahead' hdivides' => ?_,
    fun fault hfault => Cursor.upTo_reports hfault [], fun hbrace => ?_⟩
  · obtain ⟨rfl, rfl⟩ := hdivides.unique hdivides'
    exact heq
  · obtain ⟨rest, hrest⟩ := List.head?_eq_some_iff.mp hbrace
    have hbalances {taken ahead : List Char} : (start cur.offset).Balances cur.rest taken ahead ↔
        ∃ tail, taken = '{' :: tail ∧
          (start (cur.offset + size ['{'])).Reaches (-1) rest tail ahead := by
      rw [hrest]
      exact Scan.balances_iff
    have hblock : cur.block = (cur.pass ['{'] rest).closeBlock cur.offset 1 >>= fun found =>
        .ok ('{' :: found.1, found.2) := by
      rw [Cursor.block, hrest]
      rfl
    rcases Scan.closesByBalance cur.offset 1 (cur.pass ['{'] rest) with
      ⟨tail, ahead, hreaches, heq⟩ | ⟨hnever, heq⟩
    · rw [heq] at hblock
      have hfound : (start cur.offset).Balances cur.rest ('{' :: tail) ahead :=
        hbalances.mpr ⟨tail, rfl, hreaches⟩
      refine ⟨fun text last => ⟨fun h => ?_, fun h => ?_⟩, fun fault =>
        ⟨fun h => ?_, fun h => absurd hfound (h.1 _ _)⟩⟩
      · refine ⟨?_, (Cursor.reads_block h).1⟩
        rw [hblock] at h
        cases h
        exact hfound
      · obtain ⟨hbalanced, -, hoffset⟩ := h
        obtain ⟨tail', rfl, hreaches'⟩ := hbalances.mp hbalanced
        obtain ⟨rfl, hahead⟩ := hreaches.unique hreaches'
        obtain ⟨offset, behind⟩ := last
        dsimp only at hahead hoffset
        subst hahead hoffset
        rw [hblock]
        simp [bind, Except.bind, Cursor.pass, Nat.add_assoc]
      · rw [hblock] at h
        cases h
    · rw [heq] at hblock
      have hnone (taken ahead : List Char) :
          ¬ (start cur.offset).Balances cur.rest taken ahead := fun h => by
        obtain ⟨tail, rfl, hreaches⟩ := hbalances.mp h
        exact hnever tail ahead hreaches.append_eq hreaches.reached
      have hpast : (start cur.offset).past cur.rest =
          (start (cur.pass ['{'] rest).offset).past (cur.pass ['{'] rest).rest := by
        rw [hrest]
        rfl
      rw [hpast, hblock]
      refine ⟨fun text last => ⟨fun h => ?_, fun h => absurd h.1 (hnone _ _)⟩, fun fault =>
        ⟨fun h => ?_, fun h => ?_⟩⟩
      · cases h
      · cases h
        exact ⟨hnone, rfl⟩
      · rw [h.2]
        rfl

/-- A semicolon in brackets does not stop the scan. The braces of a string, an escape, a comment and
brackets do not count, and one block is nested in the other one. -/
theorem extents_of_scan_of_nested :
    let block := "\x7ba:\"\x7d\" [;\x7b] \\\x7d /*\x7d*/ \x7bb\x7d\x7d".toList
    let cur := Cursor.start (block ++ " ; c".toList)
    Neutral [';'] ∧ cur.rest.head? = some '{' ∧
      cur.upTo [';'] 0 = .ok (block ++ [' '], ⟨26, "; c".toList⟩) ∧
      (start 0).Divides [';'] cur.rest (block ++ [' ']) "; c".toList ∧
      cur.block = .ok (block, ⟨25, " ; c".toList⟩) ∧
      (start 0).Balances cur.rest block " ; c".toList := by
  intro block cur
  have hstops : Neutral [';'] := by
    intro c hmem
    obtain rfl : c = ';' := by simpa using hmem
    decide
  have hbrace : cur.rest.head? = some '{' := by decide
  have hupTo : cur.upTo [';'] 0 = .ok (block ++ [' '], ⟨26, "; c".toList⟩) := by decide +kernel
  have hblock : cur.block = .ok (block, ⟨25, " ; c".toList⟩) := by decide +kernel
  obtain ⟨⟨taken, ahead, hdivides⟩, hfound, -, hblocks⟩ := extents_of_scan hstops cur
  have heq := hfound taken ahead hdivides
  rw [hupTo] at heq
  split at heq
  · cases heq
  · obtain ⟨rfl, hstop⟩ := Prod.mk.inj (Except.ok.inj heq)
    obtain rfl : "; c".toList = ahead := congrArg Cursor.rest hstop
    exact ⟨hstops, hbrace, hupTo, hdivides, hblock, (((hblocks hbrace).1 _ _).mp hblock).1⟩

end WebFonts.Css
