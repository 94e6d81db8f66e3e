import Std.Data.ExtTreeMap
import WebFonts.Text.Bytes

/-!
# Insertions into a text

An overlay leaves its source as it is and keeps what is to be inserted: a lead in front of
everything, and texts at byte offsets, each before the character that begins there. `render` weaves
them together. `insert_eq_ok_iff` tells which insertions are accepted and `insertedAt_place` what
they add; `render_ofSource` and `render_prepend` describe what is rendered.
-/

namespace WebFonts

open Text (size isBoundary)

/-- The reasons to refuse an insertion. -/
inductive InsertFault where
  /-- The offset lies behind the end of a source of that length. -/
  | pastEnd (offset length : Nat)
  /-- The offset lies inside a character. -/
  | insideCharacter (offset : Nat)
deriving Repr, DecidableEq

/-- The wording under which a refused insertion is reported. -/
def InsertFault.message : InsertFault → String
  | pastEnd offset length =>
    s!"Insertion offset {offset} is past the end of the source ({length} bytes)"
  | insideCharacter offset => s!"Insertion offset {offset} is not on a character boundary"

/-- A source and the insertions into it. -/
structure Overlay where
  source : String
  /-- What stands in front of the source. -/
  lead : String
  /-- What stands before the character at an offset. -/
  inserts : Std.ExtTreeMap Nat String

namespace Overlay

/-- The overlay without insertions. -/
def ofSource (source : String) : Overlay :=
  ⟨source, "", ∅⟩

/-- Inserts a text in front of everything, earlier leads included. -/
def prepend (text : String) (overlay : Overlay) : Overlay :=
  { overlay with lead := text ++ overlay.lead }

/-- What is inserted at an offset. -/
def insertedAt (overlay : Overlay) (offset : Nat) : String :=
  overlay.inserts.getD offset ""

/-- Adds a text behind what is inserted at an offset. An empty text adds nothing. -/
def place (offset : Nat) (text : String) (overlay : Overlay) : Overlay :=
  if text.isEmpty then overlay
  else
    { overlay with
      inserts := overlay.inserts.insert offset (overlay.insertedAt offset ++ text) }

/-- Inserts a text before the character at a byte offset and behind what was inserted there before.
The length of the source is an offset too. -/
def insert (offset : Nat) (text : String) (overlay : Overlay) : Except InsertFault Overlay :=
  if size overlay.source.toList < offset then
    .error (.pastEnd offset (size overlay.source.toList))
  else if isBoundary offset overlay.source.toList then .ok (overlay.place offset text)
  else .error (.insideCharacter offset)

/-- Whether anything is inserted. -/
def isChanged (overlay : Overlay) : Bool :=
  !overlay.lead.isEmpty || !overlay.inserts.isEmpty

/-- A part of the source that begins at an offset, with every insertion before its character. -/
def weave (overlay : Overlay) (offset : Nat) : List Char → List Char
  | [] => (overlay.insertedAt offset).toList
  | c :: rest =>
    (overlay.insertedAt offset).toList ++ c :: overlay.weave (offset + c.utf8Size) rest

/-- The source with all insertions. -/
def render (overlay : Overlay) : String :=
  overlay.lead ++ String.ofList (overlay.weave 0 overlay.source.toList)

/-! ### What the operations do -/

/-- The lead does not matter to the rest. -/
theorem weave_prepend (lead : String) (overlay : Overlay) (offset : Nat) (text : List Char) :
    (overlay.prepend lead).weave offset text = overlay.weave offset text := by
  induction text generalizing offset with
  | nil => rfl
  | cons c rest ih => simp only [weave, ih]; rfl

/-- A lead is rendered in front of everything else. -/
theorem render_prepend (lead : String) (overlay : Overlay) :
    (overlay.prepend lead).render = lead ++ overlay.render := by
  simp only [render, weave_prepend]
  simp only [prepend, String.append_assoc]

@[simp] theorem source_place (offset : Nat) (text : String) (overlay : Overlay) :
    (overlay.place offset text).source = overlay.source := by
  unfold place
  split <;> rfl

@[simp] theorem lead_place (offset : Nat) (text : String) (overlay : Overlay) :
    (overlay.place offset text).lead = overlay.lead := by
  unfold place
  split <;> rfl

theorem insertedAt_place (offset other : Nat) (text : String) (overlay : Overlay) :
    (overlay.place offset text).insertedAt other =
      if offset = other then overlay.insertedAt other ++ text else overlay.insertedAt other := by
  unfold place
  split
  · next hempty => rw [String.isEmpty_iff.mp hempty, String.append_empty, ite_self]
  · simp only [insertedAt, Std.ExtTreeMap.getD_insert, Std.compare_eq_iff_eq]
    split
    · next heq => rw [heq]
    · rfl

/-- Insertions are accepted exactly at the character boundaries of the source. -/
theorem insert_eq_ok_iff {offset : Nat} {text : String} {overlay changed : Overlay} :
    overlay.insert offset text = .ok changed ↔
      isBoundary offset overlay.source.toList = true ∧ overlay.place offset text = changed := by
  unfold insert
  split
  · next hlt =>
    refine ⟨(nomatch ·), ?_⟩
    rintro ⟨h, -⟩
    obtain ⟨front, back, htext, hsize⟩ := Text.isBoundary_iff.mp h
    rw [htext, Text.size_append] at hlt
    omega
  · split
    · next h => simp [h]
    · next h => simp [h]

theorem weave_ofSource (source : String) (offset : Nat) (text : List Char) :
    (ofSource source).weave offset text = text := by
  induction text generalizing offset with
  | nil => simp [weave, insertedAt, ofSource]
  | cons c rest ih => simp only [weave, ih]; simp [insertedAt, ofSource]

/-- Without insertions the source is rendered as it is. -/
theorem render_ofSource (source : String) : (ofSource source).render = source := by
  simp only [render, weave_ofSource]
  simp [ofSource]

end Overlay

end WebFonts
