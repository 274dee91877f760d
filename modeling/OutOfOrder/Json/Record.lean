import OutOfOrder.Json.Scalar

/-!
# Reading a record from a JSON value

A record has named fields in a fixed order, and a default for each. It may be
given as an object: fields that are missing keep their defaults, names that
are not fields are passed over whatever their value, and a field that is given
twice is refused. It may also be given as an array of its fields in order, of
which the last may be missing.
-/

namespace OutOfOrder.Json

/-- A field of records of type `α`: its name, and how its value enters a
record. -/
structure RecordField (α : Type) where
  name : String
  read : Value → α → Option α

namespace RecordField

variable {α β : Type}

/-- A field whose value is read by `value?` and entered by `enter`. -/
def of (name : String) (value? : Value → Option β) (enter : β → α → α) : RecordField α where
  name
  read v a := (value? v).map fun b => enter b a

/-- Reads the members of an object into a record. The fields named in `seen`
have been given already. -/
def readMembers (fields : List (RecordField α)) :
    List String → α → List (List Char × Value) → Option α
  | _, a, [] => some a
  | seen, a, (raw, v) :: rest =>
    match string? raw with
    | none => none
    | some name =>
      match fields.find? (·.name == name) with
      | none => readMembers fields seen a rest
      | some field =>
        if seen.contains name then none
        else
          match field.read v a with
          | none => none
          | some a => readMembers fields (name :: seen) a rest

/-- Reads the items of an array into the fields of a record in order. -/
def readItems : List (RecordField α) → α → List Value → Option α
  | _, a, [] => some a
  | [], _, _ :: _ => none
  | field :: fields, a, v :: rest =>
    match field.read v a with
    | none => none
    | some a => readItems fields a rest

/-- Reads a record, starting from its defaults. -/
def readRecord? (fields : List (RecordField α)) (default : α) : Value → Option α
  | .object members => readMembers fields [] default members
  | .array items => readItems fields default items
  | _ => none

end RecordField

end OutOfOrder.Json
