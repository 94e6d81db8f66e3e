import WebFonts.Json.Fault

/-!
# Leaves of a JSON text

A number or a string can be read, or passed over unread where nobody asks for it. The two differ
where a text breaks off inside a number, and where a string cannot be represented, so a `Leaf`
carries the outcome of either.
-/

namespace WebFonts.Json

/-- What a leaf of a JSON text gives when it is read, and when it is passed over. -/
structure Leaf (α : Type) where
  read : Except Fault α
  skip : Except Fault Unit
deriving Repr

namespace Leaf

variable {α : Type}

/-- A leaf without fault. -/
def ofValue (value : α) : Leaf α :=
  ⟨.ok value, .ok ()⟩

/-- A leaf with a fault that is met in either way. -/
def broken (fault : Fault) : Leaf α :=
  ⟨.error fault, .error fault⟩

end Leaf

end WebFonts.Json
