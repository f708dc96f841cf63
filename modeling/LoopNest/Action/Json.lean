import LoopNest.Action.Basic
import LoopNest.Table.Json

/-!
LoopNest.Action.Json — kinds and actions as JSON.

    {"kind": "skewing", "params": ["i", "j", 1, 2], "comps": ["c"]}

A parameter written as a string is a loop and one written as an integer is
a factor.  Reading looks at the form only: whether the parameters fit the
kind is not asked.
-/

namespace LoopNest

open Json (Value)

/-- A kind: its full name, alone or as the only name of an object around
null. -/
def Kind.ofJson? : Value → Option Kind
  | .string s => s.bind Kind.ofName?
  | .object [(some name, .null)] => Kind.ofName? name
  | _ => none

/-- The kind that a text holds as JSON. -/
def Kind.ofJsonText (text : String) : Except Error Kind :=
  match (Value.ofText? text).bind Kind.ofJson? with
  | some kind => .ok kind
  | none => .error .malformedJson

/-- A kind as JSON. -/
def Kind.toJson (k : Kind) : Value := .ofString k.name

/-- A parameter. -/
def Param.ofJson? : Value → Option Param
  | .string s => s.map fun text => .loop ⟨text⟩
  | v => v.int64?.map .factor

/-- A parameter as JSON. -/
def Param.toJson : Param → Value
  | .loop id => id.toJson
  | .factor value => .ofInt value.toInt

namespace Action

/-- An action from the values of its fields. -/
def ofFields? : List (Option Value) → Option Action
  | [kind, params, computations] => do
    let kind ← Json.required Kind.ofJson? kind
    let params ← Json.required (Value.list? Param.ofJson?) params
    let computations ← Json.required (Value.list? Value.string?) computations
    return { kind, params, computations }
  | _ => none

/-- An action. -/
def ofJson? (v : Value) : Option Action := do
  ofFields? (← v.fields? ["kind", "params", "comps"] 3)

/-- The action that a text holds as JSON. -/
def ofText (text : String) : Except Error Action :=
  match (Value.ofText? text).bind ofJson? with
  | some action => .ok action
  | none => .error .malformedJson

/-- An action as JSON. -/
def toJson (a : Action) : Value :=
  .record [
    ("kind", a.kind.toJson),
    ("params", .array (a.params.map Param.toJson)),
    ("comps", .ofStrings a.computations)]

/-- An action as JSON text. -/
def text (a : Action) : String := a.toJson.text

end Action

end LoopNest
