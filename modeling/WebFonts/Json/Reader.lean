import WebFonts.Json.Tree

/-!
# Reading JSON texts

The reader is a machine that keeps the open arrays and objects on a stack. Where the text stops
being JSON it closes them all, with the place marked, so that every text has a `Document`
(`Document.ofText`). Each step shortens the text ahead (`step_shortens`), so every run ends.
-/

namespace WebFonts.Json

/-! ### Leaves -/

/-- Reads the rest of a word, which must be `word`. -/
def readWord {α : Type} (value : α) : (word text : List Char) → Except Fault α × List Char
  | [], rest => (.ok value, rest)
  | _ :: _, [] => (.error .truncated, [])
  | w :: word, c :: rest => if c == w then readWord value word rest else (.error .malformed, rest)

theorem length_readWord_le {α : Type} (value : α) (word text : List Char) :
    (readWord value word text).2.length ≤ text.length := by
  fun_induction readWord value word text with
  | case1 => simp
  | case2 => simp
  | case3 w word c rest _ ih => simp only [List.length_cons]; omega
  | case4 => simp

/-- The text behind a leaf, if nothing broke off inside it. -/
def behind {α : Type} (outcome : Except Fault α) (after : List Char) : Option (List Char) :=
  if outcome.isOk then some after else none

/-- Reads the value without parts that begins with the character `c`, and gives the text behind it
if reading can go on there. An opening bracket gives a container that breaks off at once. -/
def readLeaf (c : Char) (rest : List Char) : Tree × Option (List Char) :=
  if c == '"' then
    let (leaf, after) := Quoted.read rest
    (.string leaf, behind leaf.skip after)
  else if c == 'n' then
    let (read, after) := readWord () ['u', 'l', 'l'] rest
    (.null read, behind read after)
  else if c == 't' then
    let (read, after) := readWord true ['r', 'u', 'e'] rest
    (.bool read, behind read after)
  else if c == 'f' then
    let (read, after) := readWord false ['a', 'l', 's', 'e'] rest
    (.bool read, behind read after)
  else if c == '-' || c.isDigit then
    let (leaf, after) := Numeral.read (c :: rest)
    (.number leaf, behind leaf.skip after)
  else if c == '[' then (.array [] (.broken .malformed), none)
  else if c == '{' then (.object [] (.broken .malformed), none)
  else (.junk, none)

theorem behind_eq_some {α : Type} {outcome : Except Fault α} {after last : List Char}
    (h : behind outcome after = some last) : last = after ∧ ∃ value, outcome = .ok value := by
  unfold behind at h
  cases outcome with
  | error fault => simp [Except.isOk, Except.toBool] at h
  | ok value => simp [Except.isOk, Except.toBool] at h; exact ⟨h.symm, value, rfl⟩

/-- The text behind a leaf lacks at least the character that the leaf begins with. -/
theorem length_le_of_readLeaf {c : Char} {rest after : List Char} {tree : Tree}
    (h : readLeaf c rest = (tree, some after)) : after.length ≤ rest.length := by
  unfold readLeaf at h
  split at h
  · simp only [Prod.mk.injEq] at h
    rw [(behind_eq_some h.2).1]
    exact Quoted.length_readInside_le rest
  split at h
  · simp only [Prod.mk.injEq] at h
    rw [(behind_eq_some h.2).1]
    exact length_readWord_le _ _ _
  split at h
  · simp only [Prod.mk.injEq] at h
    rw [(behind_eq_some h.2).1]
    exact length_readWord_le _ _ _
  split at h
  · simp only [Prod.mk.injEq] at h
    rw [(behind_eq_some h.2).1]
    exact length_readWord_le _ _ _
  split at h
  · simp only [Prod.mk.injEq] at h
    obtain ⟨rfl, value, hskip⟩ := behind_eq_some h.2
    have := Numeral.length_lt_of_read (Prod.eta _).symm hskip
    simp only [List.length_cons] at this
    omega
  split at h
  · cases h
  split at h <;> cases h

/-! ### The reader -/

/-- An array or an object whose closing bracket has not been read. -/
inductive Frame where
  /-- The items read before the one in question, the last one first. -/
  | array (before : List Tree)
  /-- The members read before the one in question, the last one first, and its key. -/
  | object (before : List (Tree × Tree)) (key : Tree)

/-- What is to be read next. -/
inductive Turn where
  | value
  /-- The key of a member of an object, behind these members, the last one first. -/
  | key (before : List (Tree × Tree))
  /-- What stands behind a value. -/
  | after (tree : Tree)

/-- The container whose last part is `tree`. -/
def Frame.close (ending : Ending) (tree : Tree) : Frame → Tree
  | array before => .array (tree :: before).reverse ending
  | object before key => .object ((key, tree) :: before).reverse ending

/-- The document that breaks off behind a tree. -/
def breakOff (frames : List Frame) (tree : Tree) : Document :=
  ⟨frames.foldl (fun inner frame => frame.close (.broken .malformed) inner) tree, false⟩

/-- The text without the blanks at its start. -/
def skipBlanks (text : List Char) : List Char :=
  text.dropWhile Char.isWhitespace

theorem length_skipBlanks_le (text : List Char) : (skipBlanks text).length ≤ text.length :=
  (List.dropWhile_suffix _).length_le

/-- What a step of the reader leads to: the end, or the open containers, what is to be read next,
and the text ahead. -/
abbrev Next := Document ⊕ (List Frame × Turn × List Char)

/-- Reads the beginning of a value, which stands behind blanks. -/
def readValue (frames : List Frame) : List Char → Next
  | [] => .inl (breakOff frames .missing)
  | '[' :: rest =>
    match skipBlanks rest with
    | ']' :: after => .inr (frames, .after (.array [] .closed), after)
    | items => .inr (.array [] :: frames, .value, items)
  | '{' :: rest =>
    match skipBlanks rest with
    | '}' :: after => .inr (frames, .after (.object [] .closed), after)
    | members => .inr (frames, .key [], members)
  | c :: rest =>
    match readLeaf c rest with
    | (tree, some after) => .inr (frames, .after tree, after)
    | (tree, none) => .inl (breakOff frames tree)

/-- Reads a key and the colon behind it. -/
def readKey (frames : List Frame) (before : List (Tree × Tree)) : List Char → Next
  | [] => .inl (breakOff (.object before .missing :: frames) .missing)
  | c :: rest =>
    match if c == '"' then readLeaf c rest else ((readLeaf c rest).1, none) with
    | (key, none) => .inl (breakOff (.object before key :: frames) .junk)
    | (key, some after) =>
      match skipBlanks after with
      | [] => .inl (breakOff (.object before key :: frames) .missing)
      | ':' :: value => .inr (.object before key :: frames, .value, value)
      | _ => .inl (breakOff (.object before key :: frames) .junk)

/-- Reads what stands behind a value: the end of the container that it is in, or a comma. -/
def readAfter (tree : Tree) : List Frame → List Char → Next
  | [], text => .inl ⟨tree, !text.isEmpty⟩
  | frame :: outer, [] => .inl (breakOff outer (frame.close (.broken .truncated) tree))
  | .array before :: outer, c :: rest =>
    if c == ',' then .inr (.array (tree :: before) :: outer, .value, rest)
    else if c == ']' then .inr (outer, .after ((Frame.array before).close .closed tree), rest)
    else .inl (breakOff outer ((Frame.array before).close (.broken .malformed) tree))
  | .object before key :: outer, c :: rest =>
    if c == ',' then .inr (outer, .key ((key, tree) :: before), rest)
    else if c == '}' then .inr (outer, .after ((Frame.object before key).close .closed tree), rest)
    else .inl (breakOff outer ((Frame.object before key).close (.broken .malformed) tree))

/-- One step of the reader. -/
def step (frames : List Frame) (turn : Turn) (text : List Char) : Next :=
  match turn with
  | .value => readValue frames (skipBlanks text)
  | .key before => readKey frames before (skipBlanks text)
  | .after tree => readAfter tree frames (skipBlanks text)

theorem length_lt_of_readValue {frames frames' : List Frame} {turn : Turn} {text rest : List Char}
    (h : readValue frames text = .inr (frames', turn, rest)) : rest.length < text.length := by
  unfold readValue at h
  split at h
  · cases h
  · next inside =>
    have := length_skipBlanks_le inside
    split at h <;> cases h
    · next heq => simp only [heq, List.length_cons] at this ⊢; omega
    · simp only [List.length_cons]; omega
  · next inside =>
    have := length_skipBlanks_le inside
    split at h <;> cases h
    · next heq => simp only [heq, List.length_cons] at this ⊢; omega
    · simp only [List.length_cons]; omega
  · split at h <;> cases h
    next hleaf =>
      have := length_le_of_readLeaf hleaf
      simp only [List.length_cons]; omega

theorem length_lt_of_readKey {frames frames' : List Frame} {turn : Turn} {text rest : List Char}
    {before : List (Tree × Tree)} (h : readKey frames before text = .inr (frames', turn, rest)) :
    rest.length < text.length := by
  unfold readKey at h
  split at h
  · cases h
  · split at h
    · cases h
    · next key after hkey =>
      have hle := length_skipBlanks_le after
      split at h
      · cases h
      · next hcolon =>
        cases h
        split at hkey
        · have := length_le_of_readLeaf hkey
          simp only [hcolon, List.length_cons] at hle ⊢
          omega
        · cases hkey
      · cases h

theorem length_lt_of_readAfter {frames frames' : List Frame} {turn : Turn} {text rest : List Char}
    {tree : Tree} (h : readAfter tree frames text = .inr (frames', turn, rest)) :
    rest.length < text.length := by
  unfold readAfter at h
  split at h
  · cases h
  · cases h
  all_goals
    split at h
    · cases h; simp
    · split at h <;> cases h
      simp

theorem step_shortens {frames frames' : List Frame} {turn turn' : Turn} {text rest : List Char}
    (h : step frames turn text = .inr (frames', turn', rest)) : rest.length < text.length := by
  have hle := length_skipBlanks_le text
  unfold step at h
  split at h
  · exact Nat.lt_of_lt_of_le (length_lt_of_readValue h) hle
  · exact Nat.lt_of_lt_of_le (length_lt_of_readKey h) hle
  · exact Nat.lt_of_lt_of_le (length_lt_of_readAfter h) hle

/-- Reads on to the end of the text. -/
def run (frames : List Frame) (turn : Turn) (text : List Char) : Document :=
  match _h : step frames turn text with
  | .inl document => document
  | .inr (frames', turn', rest) => run frames' turn' rest
termination_by text.length
decreasing_by exact step_shortens ‹_›

/-- Reads a whole text. -/
def Document.ofText (text : String) : Document :=
  run [] .value text.toList

end WebFonts.Json
