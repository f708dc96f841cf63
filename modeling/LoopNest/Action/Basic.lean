import LoopNest.Forest.Walk

/-!
LoopNest.Action.Basic — one step of a schedule.

An action is a kind, its parameters and the computations it targets.
`Action.make` checks that the parameters fit the kind's layout and that
there is something to transform; every named way of building an action
goes through it.  An action that was read from a file need not have passed
that check.
-/

namespace LoopNest

/-- One parameter of an action. -/
inductive Param where
  | loop (id : LoopId)
  | factor (value : Int64)
deriving DecidableEq, Inhabited

/-- What a parameter is. -/
def Param.shape : Param → Shape
  | .loop _ => .loop
  | .factor _ => .factor

/-- A transformation of some computations. -/
structure Action where
  kind : Kind
  params : List Param
  computations : List String
deriving DecidableEq, Inhabited

namespace Action

/-- The loops among the parameters. -/
def loops (a : Action) : List LoopId :=
  a.params.filterMap fun
    | .loop id => some id
    | .factor _ => none

/-- The factors among the parameters. -/
def factors (a : Action) : List Int64 :=
  a.params.filterMap fun
    | .loop _ => none
    | .factor value => some value

/-- Compare parameters with a layout, position by position from `index` on. -/
def checkShapes (kind : Kind) (index : Nat) : List Param → List Shape → Except Error Unit
  | param :: params, shape :: shapes =>
    if param.shape = shape then checkShapes kind (index + 1) params shapes
    else .error (.parameterShape kind index shape)
  | _, _ => .ok ()

/-- An action whose parameters fit its kind and that has a target. -/
def make (kind : Kind) (params : List Param) (computations : List String) :
    Except Error Action :=
  if params.length ≠ kind.arity then
    .error (.parameterCount kind kind.arity params.length)
  else do
    checkShapes kind 0 params kind.shape
    if computations.isEmpty then .error (.noTargets kind)
    else .ok { kind, params, computations }

/-- Mark a loop parallel. -/
def parallelization (loop : LoopId) (computations : List String) : Except Error Action :=
  make .parallelization [.loop loop] computations

/-- Skew two loops. -/
def skewing (outer inner : LoopId) (factors : Int64 × Int64) (computations : List String) :
    Except Error Action :=
  make .skewing [.loop outer, .loop inner, .factor factors.1, .factor factors.2] computations

/-- Swap two loops. -/
def interchange (first second : LoopId) (computations : List String) : Except Error Action :=
  make .interchange [.loop first, .loop second] computations

/-- Run a loop backwards. -/
def reversal (loop : LoopId) (computations : List String) : Except Error Action :=
  make .reversal [.loop loop] computations

/-- Unroll a loop. -/
def unrolling (loop : LoopId) (factor : Int64) (computations : List String) :
    Except Error Action :=
  make .unrolling [.loop loop, .factor factor] computations

/-- Tile two loops. -/
def tiling2d (outer inner : LoopId) (sizes : Int64 × Int64) (computations : List String) :
    Except Error Action :=
  make .tiling2d [.loop outer, .loop inner, .factor sizes.1, .factor sizes.2] computations

/-- Append the names that are not there yet. -/
def addNew (known : List String) : List String → List String
  | [] => known
  | name :: rest => if name ∈ known then addNew known rest else addNew (known ++ [name]) rest

/-- The computations inside some loops, each named once, where it is met
first. -/
def targetsBelow (t : Forest) (known : List String) : List LoopId → Except Error (List String)
  | [] => .ok known
  | id :: rest => do
    let inside ← t.subtreeComputations id
    targetsBelow t (addNew known inside) rest

/-- The action on some candidate loops with some factors; it targets
everything inside the loops. -/
def ofCandidate (kind : Kind) (t : Forest) (candidate : List LoopId) (factors : List Int64) :
    Except Error Action := do
  let computations ← targetsBelow t [] candidate
  make kind (candidate.map .loop ++ factors.map .factor) computations

end Action

end LoopNest
