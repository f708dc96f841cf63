import LoopNest.Json.Value

/-!
LoopNest.Json.Record — JSON values read as records, lists and numbers.

A record with known fields is written as an object, in which any other
member is passed over, or as an array of the fields in their order.  An
object may hold a known field once at most, and every name in it has to
denote a text, also a name that is passed over.  An array may leave off
fields at its end, down to a number that the record fixes.
-/

namespace LoopNest.Json

/-- Set the value of a field, which may not have one yet.  A member whose
name is no field is passed over. -/
def setField (field : String) (value : Value) :
    List String → List (Option Value) → Option (List (Option Value))
  | name :: names, slot :: slots =>
    if name = field then
      match slot with
      | none => some (some value :: slots)
      | some _ => none
    else (setField field value names slots).map (slot :: ·)
  | _, slots => some slots

/-- Sort the members of an object into the fields of a record. -/
def sortMembers (fields : List String) (slots : List (Option Value)) :
    List (Option String × Value) → Option (List (Option Value))
  | [] => some slots
  | (none, _) :: _ => none
  | (some name, value) :: rest => do
    sortMembers fields (← setField name value fields slots) rest

/-- The fields of a record, each with its value if it has one.  In array form
at least the first `least` fields are there. -/
def Value.fields? (fields : List String) (least : Nat) : Value → Option (List (Option Value))
  | .object members => sortMembers fields (fields.map fun _ => none) members
  | .array elements =>
    if least ≤ elements.length ∧ elements.length ≤ fields.length then
      some (elements.map some ++ List.replicate (fields.length - elements.length) none)
    else none
  | _ => none

/-- A string. -/
def Value.string? : Value → Option String
  | .string s => s
  | _ => none

/-- A list whose elements are all readable. -/
def readAll {α : Type} (read : Value → Option α) : List Value → Option (List α)
  | [] => some []
  | v :: rest => do
    let a ← read v
    let as ← readAll read rest
    return a :: as

/-- An array of readable elements. -/
def Value.list? {α : Type} (read : Value → Option α) : Value → Option (List α)
  | .array elements => readAll read elements
  | _ => none

/-- A number written as an integer that fits 64 bits with sign. -/
def Value.int64? : Value → Option Int64
  | .number (.integer n) =>
    if Int64.minValue.toInt ≤ n ∧ n ≤ Int64.maxValue.toInt then some (Int64.ofInt n) else none
  | _ => none

/-- A truth value. -/
def Value.bool? : Value → Option Bool
  | .bool b => some b
  | _ => none

/-- A value that may be null, null standing for nothing. -/
def Value.nullable? {α : Type} (read : Value → Option α) : Value → Option (Option α)
  | .null => some none
  | v => (read v).map some

/-- A field that may be missing. -/
def optional {α : Type} (fallback : α) (read : Value → Option α) : Option Value → Option α
  | none => some fallback
  | some v => read v

/-- A field that has to be there. -/
def required {α : Type} (read : Value → Option α) (field : Option Value) : Option α :=
  field.bind read

end LoopNest.Json
