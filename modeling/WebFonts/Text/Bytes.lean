/-!
# Text measured in bytes

Positions in a stylesheet are byte offsets into its UTF-8 form, while the readers of this library
work on lists of characters. This file joins the two views: `size` is the byte length of a list of
characters, and `cut` divides it at a byte offset. `cut_append` says that nothing is lost, and
`isBoundary_iff` that an offset is a boundary exactly when some prefix has that many bytes.
-/

namespace WebFonts.Text

/-- The number of bytes of a text in UTF-8. -/
def size : List Char → Nat
  | [] => 0
  | c :: text => c.utf8Size + size text

@[simp] theorem size_nil : size [] = 0 := rfl

@[simp] theorem size_cons (c : Char) (text : List Char) :
    size (c :: text) = c.utf8Size + size text := rfl

@[simp] theorem size_append (front back : List Char) :
    size (front ++ back) = size front + size back := by
  induction front with
  | nil => simp
  | cons c front ih => simp [ih, Nat.add_assoc]

/-- Only the empty text has no bytes. -/
theorem size_eq_zero {text : List Char} : size text = 0 ↔ text = [] := by
  cases text with
  | nil => simp
  | cons c rest => have := c.utf8Size_pos; simp; omega

/-- Divides a text at a byte offset. A character that straddles the offset goes to the back part,
and an offset past the end leaves that part empty. -/
def cut : Nat → List Char → List Char × List Char
  | _, [] => ([], [])
  | offset, c :: rest =>
    if c.utf8Size ≤ offset then
      let (front, back) := cut (offset - c.utf8Size) rest
      (c :: front, back)
    else ([], c :: rest)

theorem cut_append (offset : Nat) (text : List Char) :
    (cut offset text).1 ++ (cut offset text).2 = text := by
  induction text generalizing offset with
  | nil => rfl
  | cons c rest ih =>
    unfold cut
    split
    · simpa using ih _
    · rfl

/-- Cutting after a known front part gives that part back. -/
theorem cut_size_append (front back : List Char) :
    cut (size front) (front ++ back) = (front, back) := by
  induction front with
  | nil =>
    cases back with
    | nil => rfl
    | cons c rest => have := c.utf8Size_pos; simp [cut]; omega
  | cons c front ih => simp [cut, ih]

/-- A text is divided in one way at an offset. -/
theorem append_inj_of_size {front back front' back' : List Char}
    (h : front ++ back = front' ++ back') (hsize : size front = size front') :
    front = front' ∧ back = back' := by
  have hcut := cut_size_append front back
  rw [h, hsize, cut_size_append] at hcut
  exact (Prod.mk.inj hcut).imp Eq.symm Eq.symm

/-- Whether a byte offset falls between two characters, or at one of the two ends. -/
def isBoundary (offset : Nat) (text : List Char) : Bool :=
  size (cut offset text).1 == offset

/-- An offset is a boundary exactly when some prefix of the text has that many bytes. -/
theorem isBoundary_iff {offset : Nat} {text : List Char} :
    isBoundary offset text = true ↔ ∃ front back, text = front ++ back ∧ size front = offset := by
  constructor
  · intro h
    exact ⟨_, _, (cut_append offset text).symm, by simpa [isBoundary] using h⟩
  · rintro ⟨front, back, rfl, rfl⟩
    simp [isBoundary, cut_size_append]

end WebFonts.Text
