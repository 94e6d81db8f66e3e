import WebFonts.Json.Reader

/-!
# Decoding JSON

A decoder turns a tree into a value or tells what is wrong first. `skip` passes over a tree that
nobody asks for; `settle` checks a tree that has to be read in full before its shape is known.
`Decoder.ofText` runs a decoder on a whole text.
-/

namespace WebFonts.Json

/-- A way to read a value from a tree. -/
abbrev Decoder (α : Type) := Tree → Except Fault α

/-- The fault of an ending, if it has one. -/
def Ending.check : Ending → Except Fault Unit
  | closed => .ok ()
  | broken fault => .error fault

/-- The fault of an outcome that was to be of another shape. -/
def faultOf {α : Type} : Except Fault α → Fault
  | .error fault => fault
  | .ok _ => .mismatched

/-- What is wrong with a tree that was expected to be of another shape. A value without parts is
read first; an array or an object is refused at its bracket. -/
def Tree.mismatch : Tree → Fault
  | missing => .truncated
  | junk => .malformed
  | null read => faultOf read
  | bool read => faultOf read
  | number leaf => faultOf leaf.read
  | string leaf => faultOf leaf.read
  | array _ _ => .mismatched
  | object _ _ => .mismatched

/-- The fault of a tree that stands in the place of a key. -/
def Tree.keyFault : Tree → Fault
  | missing => .truncated
  | _ => .malformed

/-- Reads the key of a member. -/
def Tree.key : Decoder String
  | .string leaf => leaf.read
  | tree => .error tree.keyFault

/-! ### Trees that are not decoded -/

namespace Tree

mutual

/-- Passes over a tree. Strings that cannot be represented and numbers out of range do no harm. -/
def skip : Tree → Except Fault Unit
  | missing => .error .truncated
  | junk => .error .malformed
  | null read => read
  | bool read => read.map fun _ => ()
  | number leaf => leaf.skip
  | string leaf => leaf.skip
  | array items ending => do
    skipItems items
    ending.check
  | object members ending => do
    skipMembers members
    ending.check

/-- Passes over the items of an array. -/
def skipItems : List Tree → Except Fault Unit
  | [] => .ok ()
  | item :: rest => do
    item.skip
    skipItems rest

/-- Passes over the members of an object. -/
def skipMembers : List (Tree × Tree) → Except Fault Unit
  | [] => .ok ()
  | (key, value) :: rest => do
    match key with
    | string leaf => leaf.skip
    | other => .error other.keyFault
    value.skip
    skipMembers rest

end

mutual

/-- Reads a tree in full. `room` is the number of containers that may be nested in each other. -/
def settle (room : Nat) : Tree → Except Fault Unit
  | missing => .error .truncated
  | junk => .error .malformed
  | null read => read
  | bool read => read.map fun _ => ()
  | number leaf => leaf.read.map fun _ => ()
  | string leaf => leaf.read.map fun _ => ()
  | array items ending =>
    match room with
    | 0 => .error .malformed
    | room + 1 => do
      settleItems room items
      ending.check
  | object members ending =>
    match room with
    | 0 => .error .malformed
    | room + 1 => do
      settleMembers room members
      ending.check

/-- Reads the items of an array in full. -/
def settleItems (room : Nat) : List Tree → Except Fault Unit
  | [] => .ok ()
  | item :: rest => do
    settle room item
    settleItems room rest

/-- Reads the members of an object in full. -/
def settleMembers (room : Nat) : List (Tree × Tree) → Except Fault Unit
  | [] => .ok ()
  | (key, value) :: rest => do
    let _ ← key.key
    settle room value
    settleMembers room rest

end

end Tree

/-! ### Basic decoders -/

namespace Decoder

variable {α : Type}

/-- Decodes a string. -/
def string : Decoder String
  | .string leaf => leaf.read
  | tree => .error tree.mismatch

/-- Decodes a number in the range of doubles. -/
def float : Decoder Float
  | .number leaf => do
    let numeral ← leaf.read
    match numeral.toFloat? with
    | some f => return f
    | none => .error .malformed
  | tree => .error tree.mismatch

/-- Decodes a truth value. -/
def bool : Decoder Bool
  | .bool read => read
  | tree => .error tree.mismatch

/-- Decodes `null`. -/
def unit : Decoder Unit
  | .null read => read
  | tree => .error tree.mismatch

/-- Decodes an array of any length. -/
def list (item : Decoder α) : Decoder (List α)
  | .array items ending => do
    let values ← items.mapM item
    ending.check
    return values
  | tree => .error tree.mismatch

/-- Decodes a value or `null`. -/
def optional (value : Decoder α) : Decoder (Option α)
  | .null read => read.map fun _ => none
  | tree => some <$> value tree

/-- Decodes one of several words: a string, or an object whose only member is that word with
`null`. -/
def keyword (ofWord? : String → Option α) : Decoder α
  | .string leaf => do
    let word ← leaf.read
    (ofWord? word).elim (.error .mismatched) .ok
  | .object ((key, value) :: rest) ending => do
    let word ← key.key
    let found ← (ofWord? word).elim (.error .mismatched) .ok
    unit value
    if rest.isEmpty then ending.check else .error .malformed
    return found
  | .object [] (.broken fault) => .error fault
  | .missing => .error .truncated
  | _ => .error .malformed

/-- Decodes an object with arbitrary keys. The last member of a key counts. -/
def table (value : Decoder α) : Decoder (List (String × α))
  | .object members ending => do
    let entries ← members.mapM fun (key, tree) => do
      let name ← key.key
      return (name, ← value tree)
    ending.check
    return entries.foldl (fun table (name, value) =>
      if table.any (·.1 == name) then
        table.map fun entry => if entry.1 == name then (name, value) else entry
      else table ++ [(name, value)]) []
  | tree => .error tree.mismatch

/-- Runs a decoder on a whole text. -/
def ofText (decoder : Decoder α) (text : String) : Except Fault α := do
  let document := Document.ofText text
  let value ← decoder document.root
  if document.trailing then .error .malformed else .ok value

end Decoder

end WebFonts.Json
