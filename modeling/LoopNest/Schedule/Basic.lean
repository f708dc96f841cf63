import LoopNest.Oracle.Basic

/-!
LoopNest.Schedule.Basic — an ordered list of actions on one program.

A schedule remembers the oracle's last verdict on it until its actions
change.  Verdicts are remembered, errors are not.
-/

namespace LoopNest

/-- A schedule. -/
structure Schedule where
  program : Program
  actions : List Action := []
  /-- the oracle's verdict on just these actions, if it was asked -/
  verdict : Option Bool := none
deriving DecidableEq, Inhabited

namespace Schedule

/-- The schedule that does nothing. -/
def empty (program : Program) : Schedule := { program }

/-- Number of actions. -/
def size (s : Schedule) : Nat := s.actions.length

/-- Whether there are no actions. -/
def isEmpty (s : Schedule) : Bool := s.actions.isEmpty

/-- Append some actions, perhaps none, and forget the verdict. -/
def append (s : Schedule) (actions : List Action) : Schedule :=
  { s with actions := s.actions ++ actions, verdict := none }

/-- Append an action and forget the verdict. -/
def push (s : Schedule) (action : Action) : Schedule := s.append [action]

/-- Whether the schedule is legal.  The oracle is asked unless its verdict is
remembered; a verdict is remembered then. -/
def judge (s : Schedule) (oracle : Oracle) (asked : List Query) :
    Except Error Bool × Schedule × List Query :=
  match s.verdict with
  | some legal => (.ok legal, s, asked)
  | none =>
    match oracle.askLegality asked s.program s.actions with
    | (.ok legal, asked) => (.ok legal, { s with verdict := some legal }, asked)
    | (.error e, asked) => (.error e, s, asked)

end Schedule

end LoopNest
