import LoopNest.Action.Text
import LoopNest.Schedule.Basic

/-!
LoopNest.Schedule.Text — the written forms of a schedule.

The short form lists the actions in order.  The compiler wants the calls
of one computation together, so `Schedule.calls` goes through the
computations, those of the program in canonical order first, and lists
for each the calls of the actions that target it.
-/

namespace LoopNest

namespace Schedule

/-- The short forms of some actions. -/
def shortForms (t : Forest) : List Action → Except Error (List String)
  | [] => .ok []
  | action :: rest => do
    let form ← action.shortForm t
    let forms ← shortForms t rest
    return form :: forms

/-- The short forms of all actions with bars between them. -/
def shortForm (s : Schedule) : Except Error String := do
  return "|".intercalate (← shortForms s.program.forest s.actions)

/-- Append the names that have no rank and are not there yet. -/
def addForeign (t : Forest) (order : List String) : List String → List String
  | [] => order
  | name :: rest =>
    if (t.rank? name).isNone ∧ name ∉ order then addForeign t (order ++ [name]) rest
    else addForeign t order rest

/-- The computations in the order in which their calls are written: those of
the program, then other targets by first use. -/
def callOrder (s : Schedule) : List String :=
  addForeign s.program.forest s.program.forest.computations
    (s.actions.flatMap Action.computations)

/-- The calls for one computation, of the actions that target it. -/
def callsFor (t : Forest) (computation : String) : List Action → Except Error String
  | [] => .ok ""
  | action :: rest =>
    if computation ∈ action.computations then do
      let call ← action.call t computation
      let others ← callsFor t computation rest
      return call ++ others
    else callsFor t computation rest

/-- The calls for some computations, one after the other. -/
def callsForAll (t : Forest) (actions : List Action) : List String → Except Error String
  | [] => .ok ""
  | computation :: rest => do
    let calls ← callsFor t computation actions
    let others ← callsForAll t actions rest
    return calls ++ others

/-- All compiler calls, grouped by computation. -/
def calls (s : Schedule) : Except Error String :=
  callsForAll s.program.forest s.actions s.callOrder

/-- The schedule in a message: its short form, or its size when there is no
short form. -/
def text (s : Schedule) : String :=
  match s.shortForm with
  | .ok "" => "<empty>"
  | .ok form => form
  | .error _ => "<" ++ s.size.repr ++ " actions>"

end Schedule

end LoopNest
