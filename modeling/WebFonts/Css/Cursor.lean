import WebFonts.Css.Fault
import WebFonts.Text.Bytes

/-!
# Reading positions

A reader of stylesheet text works on a `Cursor`: the text that is still ahead and the byte offset
where it begins. `Reads cur taken next` says that a reader went from `cur` to `next` over the
characters `taken`; it is what every reader of this library guarantees, and it composes
(`Reads.trans`).
-/

namespace WebFonts.Css

open Text (size)

/-- The text ahead and the byte offset at which it begins. -/
structure Cursor where
  offset : Nat
  rest : List Char
deriving Repr, DecidableEq

namespace Cursor

/-- The cursor at the beginning of a text. -/
def start (text : List Char) : Cursor :=
  ⟨0, text⟩

/-- The cursor behind `taken`, with `rest` ahead. -/
def pass (cur : Cursor) (taken rest : List Char) : Cursor :=
  ⟨cur.offset + size taken, rest⟩

/-- Going from `cur` to `next` passes exactly the characters `taken`. -/
structure Reads (cur : Cursor) (taken : List Char) (next : Cursor) : Prop where
  rest_eq : cur.rest = taken ++ next.rest
  offset_eq : next.offset = cur.offset + size taken

namespace Reads

variable {a b c : Cursor} {s t : List Char}

theorem refl (a : Cursor) : Reads a [] a :=
  ⟨rfl, rfl⟩

theorem trans (hab : Reads a s b) (hbc : Reads b t c) : Reads a (s ++ t) c :=
  ⟨by rw [hab.rest_eq, hbc.rest_eq, List.append_assoc],
   by rw [hbc.offset_eq, hab.offset_eq, Text.size_append, Nat.add_assoc]⟩

theorem length_eq (h : Reads a s b) : a.rest.length = s.length + b.rest.length := by
  rw [h.rest_eq, List.length_append]

theorem length_le (h : Reads a s b) : b.rest.length ≤ a.rest.length := by
  rw [h.length_eq]; omega

/-- A reader that takes something leaves a shorter text. -/
theorem length_lt (h : Reads a s b) (hs : s ≠ []) : b.rest.length < a.rest.length := by
  have := List.length_pos_iff.mpr hs
  rw [h.length_eq]; omega

theorem offset_le (h : Reads a s b) : a.offset ≤ b.offset := by
  rw [h.offset_eq]; omega

/-- A reader that takes something ends further on. -/
theorem offset_lt (h : Reads a s b) (hs : s ≠ []) : a.offset < b.offset := by
  have := mt Text.size_eq_zero.mp hs
  rw [h.offset_eq]; omega

end Reads

theorem reads_pass {cur : Cursor} {taken rest : List Char} (h : cur.rest = taken ++ rest) :
    Reads cur taken (cur.pass taken rest) :=
  ⟨h, rfl⟩

end Cursor

/-- A failure for `cause` at the cursor. -/
def Cursor.fail {α : Type} (cur : Cursor) (cause : Cause) : Except Fault α :=
  .error ⟨cause, cur.offset⟩

end WebFonts.Css
