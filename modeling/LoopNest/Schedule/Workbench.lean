import LoopNest.Oracle.Skewing
import LoopNest.Schedule.Basic

/-!
LoopNest.Schedule.Workbench — several schedules of one program at a time.

Schedules stand in named places; a place that was never used holds the
empty schedule.  Every operation works on one place, and the record of
what the oracle was asked is common to all.
-/

namespace LoopNest

/-- Named schedules of one program. -/
structure Workbench where
  program : Program
  schedules : NameMap Schedule := ∅
  /-- what the oracle was asked so far, the oldest query first -/
  asked : List Query := []

namespace Workbench

/-- The schedule in a place. -/
def schedule (w : Workbench) (place : String) : Schedule :=
  (w.schedules[place]?).getD (.empty w.program)

/-- Put a schedule in a place. -/
def put (w : Workbench) (place : String) (s : Schedule) : Workbench :=
  { w with schedules := w.schedules.insert place s }

/-- Append actions to a schedule. -/
def append (w : Workbench) (place : String) (actions : List Action) : Workbench :=
  w.put place ((w.schedule place).append actions)

/-- Put a copy of one schedule in another place. -/
def copy (w : Workbench) (source target : String) : Workbench :=
  w.put target (w.schedule source)

/-- Ask whether a schedule is legal. -/
def judge (w : Workbench) (oracle : Oracle) (place : String) : Except Error Bool × Workbench :=
  match (w.schedule place).judge oracle w.asked with
  | (answer, s, asked) => (answer, { w.put place s with asked })

/-- Append a skewing with the oracle's factors, if it has any. -/
def skew (w : Workbench) (oracle : Oracle) (place : String) (outer inner : LoopId) :
    Except Error Action × Workbench :=
  match Action.solvedSkewing oracle w.asked w.program (w.schedule place).actions outer inner with
  | (.ok action, asked) => (.ok action, { w.append place [action] with asked })
  | (.error e, asked) => (.error e, { w with asked })

/-- Ask for factors to follow a schedule. -/
def factors (w : Workbench) (oracle : Oracle) (place : String) (levels : Nat × Nat)
    (computations : List String) : Except Error (Int64 × Int64) × Workbench :=
  match oracle.resolveFactors w.asked w.program levels (w.schedule place).actions computations with
  | (answer, asked) => (answer, { w with asked })

end Workbench

end LoopNest
