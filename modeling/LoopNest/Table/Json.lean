import LoopNest.Table.Basic
import LoopNest.Json.Record

/-!
LoopNest.Table.Json — annotations as JSON.

    {"iterators":
      {"i": {"parent_iterator": null, "lower_bound": 0, "upper_bound": "N",
             "child_iterators": ["j"], "computations_list": []}, ...}}

The table keeps document order; an id that is repeated keeps its first
place and takes its last entry.  Missing parents are null and missing
lists are empty.  A bound written as an integer is a constant, one written
as a string is symbolic, even when the string looks like a number.
-/

namespace LoopNest

open Json (Value)

/-! ## Reading -/

/-- An id. -/
def LoopId.ofJson? (v : Value) : Option LoopId := v.string?.map LoopId.mk

/-- A bound. -/
def Bound.ofJson? : Value → Option Bound
  | .string s => s.map .symbolic
  | v => v.int64?.map .constant

/-- The fields of an entry, in order. -/
def Entry.fieldNames : List String :=
  ["parent_iterator", "lower_bound", "upper_bound", "child_iterators", "computations_list"]

/-- An entry from the values of its fields. -/
def Entry.ofFields? : List (Option Value) → Option Entry
  | [parent, lower, upper, children, computations] => do
    let parent ← Json.optional none (Value.nullable? LoopId.ofJson?) parent
    let lower ← Json.required Bound.ofJson? lower
    let upper ← Json.required Bound.ofJson? upper
    let children ← Json.optional [] (Value.list? LoopId.ofJson?) children
    let computations ← Json.optional [] (Value.list? Value.string?) computations
    return { parent, lower, upper, children, computations }
  | _ => none

/-- An entry. -/
def Entry.ofJson? (v : Value) : Option Entry := do
  Entry.ofFields? (← v.fields? Entry.fieldNames 3)

namespace Table

/-- Read the members of a table into it, one after the other. -/
def tableOfMembers? (table : OrderedMap LoopId Entry) :
    List (Option String × Value) → Option (OrderedMap LoopId Entry)
  | [] => some table
  | (name, v) :: rest => do
    let id ← name
    let entry ← Entry.ofJson? v
    tableOfMembers? (table.insert ⟨id⟩ entry) rest

/-- A table of entries. -/
def tableOfJson? : Value → Option (OrderedMap LoopId Entry)
  | .object members => tableOfMembers? .empty members
  | _ => none

/-- An annotation from the values of its fields. -/
def ofFields? : List (Option Value) → Option Table
  | [loops] => (Json.required tableOfJson? loops).map Table.mk
  | _ => none

/-- An annotation. -/
def ofJson? (v : Value) : Option Table := do
  ofFields? (← v.fields? ["iterators"] 1)

/-- The annotation that a text holds. -/
def ofText (text : String) : Except Error Table :=
  match (Value.ofText? text).bind ofJson? with
  | some table => .ok table
  | none => .error .malformedJson

end Table

/-! ## Writing -/

/-- An id as JSON. -/
def LoopId.toJson (id : LoopId) : Value := .ofString id.text

/-- A bound as JSON. -/
def Bound.toJson : Bound → Value
  | .constant value => .ofInt value.toInt
  | .symbolic expression => .ofString expression

/-- An entry as JSON, all fields written out. -/
def Entry.toJson (e : Entry) : Value :=
  .record [
    ("parent_iterator", .ofOption LoopId.toJson e.parent),
    ("lower_bound", e.lower.toJson),
    ("upper_bound", e.upper.toJson),
    ("child_iterators", .array (e.children.map LoopId.toJson)),
    ("computations_list", .ofStrings e.computations)]

/-- An annotation as JSON. -/
def Table.toJson (a : Table) : Value :=
  .record [("iterators", .record (a.loops.entries.map fun p => (p.1.text, p.2.toJson)))]

/-- An annotation as JSON text. -/
def Table.text (a : Table) : String := a.toJson.text

end LoopNest
