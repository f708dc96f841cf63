import LoopNest.Oracle.Basic

/-!
LoopNest.Oracle.Skewing — skewings whose factors the oracle finds.

Skewing moves the inner of two loops along with the outer one:

    for i = 0 to N:            for i = 0 to N:
      for j = 0 to M:    ==>     for j' = f*i to M + f*i:
        S(i, j)                    S(i, j' - f*i)

Which factors are legal depends on the program and on what the schedule
did before, so the oracle is asked for them.
-/

namespace LoopNest

/-- Factors for a skewing.  That there are none is an error here. -/
def Oracle.resolveFactors (oracle : Oracle) (asked : List Query) (program : Program)
    (levels : Nat × Nat) (schedule : List Action) (computations : List String) :
    Consulted (Int64 × Int64) :=
  match oracle.askSkewing asked program schedule levels computations with
  | (.ok (some factors), asked) => (.ok factors, asked)
  | (.ok none, asked) => (.error (.unsolved levels.1 levels.2), asked)
  | (.error e, asked) => (.error e, asked)

namespace Action

/-- The levels of two loops and the computations inside the outer one, of
which there has to be one at least. -/
def skewingTargets (t : Forest) (outer inner : LoopId) :
    Except Error ((Nat × Nat) × List String) := do
  let outerNode ← t.node outer
  let innerNode ← t.node inner
  let computations ← t.subtreeComputations outer
  if computations.isEmpty then .error (.noTargets Kind.skewing)
  else .ok ((outerNode.level, innerNode.level), computations)

/-- The skewing of two loops with the oracle's factors, to follow the given
schedule.  It targets everything inside the outer loop. -/
def solvedSkewing (oracle : Oracle) (asked : List Query) (program : Program)
    (schedule : List Action) (outer inner : LoopId) : Consulted Action :=
  match skewingTargets program.forest outer inner with
  | .error e => (.error e, asked)
  | .ok (levels, computations) =>
    match oracle.resolveFactors asked program levels schedule computations with
    | (.error e, asked) => (.error e, asked)
    | (.ok factors, asked) => (skewing outer inner factors computations, asked)

end Action

end LoopNest
