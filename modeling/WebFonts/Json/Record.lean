import WebFonts.Json.Decoder

/-!
# Decoding records

A record is described by its fields. Its members may come in any order and with others among them,
but none of its own twice; it may also be written as an array of its fields in order. Members are
read from left to right, and the first that is wrong is reported.
-/

namespace WebFonts.Json

/-- A field of a record `ρ` under construction. -/
structure RecordField (ρ : Type) where
  name : String
  /-- Whether a text without the field is refused. -/
  required : Bool
  /-- Reads the field's value into the record. -/
  read : Tree → ρ → Except Fault ρ

namespace RecordField

variable {ρ α : Type}

/-- A field that must be there. -/
def must (name : String) (value : Decoder α) (set : α → ρ → ρ) : RecordField ρ :=
  ⟨name, true, fun tree record => do return set (← value tree) record⟩

/-- A field that keeps its initial value if it is not there. -/
def may (name : String) (value : Decoder α) (set : α → ρ → ρ) : RecordField ρ :=
  ⟨name, false, fun tree record => do return set (← value tree) record⟩

end RecordField

namespace Record

variable {ρ : Type}

/-- Reads the members of an object into a record, and gives the names of the fields read. Members
of other names are passed over. -/
def readMembers (fields : List (RecordField ρ)) :
    List (Tree × Tree) → List String → ρ → Except Fault (ρ × List String)
  | [], seen, record => .ok (record, seen)
  | (key, value) :: rest, seen, record => do
    let name ← key.key
    match fields.find? (·.name == name) with
    | none =>
      value.skip
      readMembers fields rest seen record
    | some field =>
      if seen.contains name then .error .mismatched
      else
        let record ← field.read value record
        readMembers fields rest (name :: seen) record

/-- Reads the items of an array into a record, one for each field in order. -/
def readItems : List (RecordField ρ) → List Tree → Ending → ρ → Except Fault ρ
  | [], [], ending, record => do
    ending.check
    return record
  | [], _ :: _, _, _ => .error .malformed
  | field :: fields, [], ending, record => do
    ending.check
    if field.required then .error .mismatched else readItems fields [] ending record
  | field :: fields, item :: items, ending, record => do
    let record ← field.read item record
    readItems fields items ending record

/-- Decodes an object as a record that starts out as `initial`. -/
def ofObject (fields : List (RecordField ρ)) (initial : ρ) : Decoder ρ
  | .object members ending => do
    let (record, seen) ← readMembers fields members [] initial
    ending.check
    if fields.all fun field => !field.required || seen.contains field.name then .ok record
    else .error .mismatched
  | tree => .error tree.mismatch

/-- Decodes an object or an array as a record that starts out as `initial`. -/
def decode (fields : List (RecordField ρ)) (initial : ρ) : Decoder ρ
  | .array items ending => readItems fields items ending initial
  | tree => ofObject fields initial tree

end Record

end WebFonts.Json
