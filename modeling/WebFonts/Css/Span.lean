import WebFonts.Text.Bytes

/-!
# Spans of source text

A span is a half-open range of byte offsets. `slice?` reads the text that a span covers.
-/

namespace WebFonts.Css

open Text (size cut isBoundary)

/-- The half-open range of byte offsets from `start` up to `stop`. -/
structure Span where
  start : Nat
  stop : Nat
deriving Repr, DecidableEq, Inhabited

namespace Span

/-- The number of bytes covered. -/
def length (span : Span) : Nat :=
  span.stop - span.start

/-- Whether the span covers nothing. -/
def isEmpty (span : Span) : Bool :=
  span.start == span.stop

/-- The span moved to the right by a number of bytes. -/
def shift (distance : Nat) (span : Span) : Span :=
  ⟨span.start + distance, span.stop + distance⟩

/-- The text that a span covers, if both of its ends lie on character boundaries of the source. -/
def slice? (source : String) (span : Span) : Option String :=
  let text := source.toList
  if span.start ≤ span.stop && isBoundary span.start text && isBoundary span.stop text then
    some (String.ofList (cut span.length (cut span.start text).2).1)
  else none

/-- A slice is the part of the source between the two parts that its span leaves out. -/
theorem slice?_append {source : String} {front part back : List Char}
    (hsource : source.toList = front ++ (part ++ back)) :
    slice? source ⟨size front, size front + size part⟩ = some (String.ofList part) := by
  have hstart : isBoundary (size front) source.toList = true :=
    Text.isBoundary_iff.mpr ⟨front, part ++ back, hsource, rfl⟩
  have hstop : isBoundary (size front + size part) source.toList = true :=
    Text.isBoundary_iff.mpr
      ⟨front ++ part, back, by rw [hsource, List.append_assoc], Text.size_append ..⟩
  simp only [slice?, length, hstart, hstop, Nat.le_add_right, Nat.add_sub_cancel_left,
    decide_true, Bool.and_true, if_true]
  rw [hsource, Text.cut_size_append, Text.cut_size_append]

end Span

end WebFonts.Css
