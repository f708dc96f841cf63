import LoopNest.Json.Record
import LoopNest.Oracle.Basic
import LoopNest.Schedule.Text

/-!
LoopNest.Oracle.Request — the messages between a search and an oracle
program.

A request is one JSON object on the program's input, a reply one JSON
value on its output:

    → {"kind":"legality","program":"blur","schedule":["P(L0)"],"computations":[]}
    ← {"legal": true}
    → {"kind":"skewing","program":"blur","schedule":[],"loop_levels":[0,1],
       "computations":["c"]}
    ← {"factors": [1, 1]}
-/

namespace LoopNest

open Json (Value)

/-- What an oracle program is asked, the actions in short form. -/
structure Request where
  kind : String
  program : String
  schedule : List String
  levels : Option (Nat × Nat)
  computations : List String
deriving DecidableEq, Repr

namespace Request

/-- The request for a verdict. -/
def legality (program : Program) (schedule : List Action) : Except Error Request := do
  let schedule ← Schedule.shortForms program.forest schedule
  return ⟨"legality", program.name, schedule, none, []⟩

/-- The request for factors. -/
def skewing (program : Program) (schedule : List Action) (levels : Nat × Nat)
    (computations : List String) : Except Error Request := do
  let schedule ← Schedule.shortForms program.forest schedule
  return ⟨"skewing", program.name, schedule, some levels, computations⟩

/-- The request that puts a query. -/
def ofQuery : Query → Except Error Request
  | .legality program schedule => legality program schedule
  | .skewing program schedule levels computations => skewing program schedule levels computations

/-- The requests that some queries led to; a query that cannot be put in
words leads to none. -/
def sent (asked : List Query) : List Request :=
  asked.filterMap fun query => (ofQuery query).toOption

/-- A request as JSON. -/
def toJson (r : Request) : Value :=
  .record (
    [("kind", .ofString r.kind), ("program", .ofString r.program),
     ("schedule", .ofStrings r.schedule)] ++
    (match r.levels with
     | some levels => [("loop_levels", .array [.ofNat levels.1, .ofNat levels.2])]
     | none => []) ++
    [("computations", .ofStrings r.computations)])

/-- The text of a request. -/
def text (r : Request) : String := r.toJson.text

end Request

/-! ## Replies -/

/-- A verdict. -/
def verdictOfFields? : List (Option Value) → Option Bool
  | [legal] => Json.required Value.bool? legal
  | _ => none

/-- The verdict in a reply. -/
def verdictOfText? (reply : String) : Option Bool := do
  verdictOfFields? (← (← Value.ofText? reply).fields? ["legal"] 1)

/-- Two factors. -/
def factorPair? (v : Value) : Option (Int64 × Int64) :=
  match v.list? Value.int64? with
  | some [first, second] => some (first, second)
  | _ => none

/-- Factors, or null where there are none. -/
def factorsOfFields? : List (Option Value) → Option (Option (Int64 × Int64))
  | [factors] => Json.optional none (Value.nullable? factorPair?) factors
  | _ => none

/-- The factors in a reply. -/
def factorsOfText? (reply : String) : Option (Option (Int64 × Int64)) := do
  factorsOfFields? (← (← Value.ofText? reply).fields? ["factors"] 1)

end LoopNest
