import LoopNest.Action.Basic

/-!
LoopNest.Action.Text — the two written forms of an action.

Both name loops by their present level in the forest, so an action reads
differently after an interchange has moved its loops.

* `Action.shortForm`, such as `S(L0,L1,1,2)`, for logs and oracles;
* `Action.call`, such as `comp.skew(0, 1, 1, 2);`, for the compiler, one
  call for each computation.
-/

namespace LoopNest

/-- The letters that stand for a kind in a short form. -/
def Kind.tag : Kind → String
  | .parallelization => "P"
  | .skewing => "S"
  | .interchange => "I"
  | .reversal => "R"
  | .unrolling => "U"
  | .tiling2d => "T2"

/-- The compiler's name for a kind. -/
def Kind.callName : Kind → String
  | .parallelization => "tag_parallel_level"
  | .skewing => "skew"
  | .interchange => "interchange"
  | .reversal => "loop_reversal"
  | .unrolling => "unroll"
  | .tiling2d => "tile"

/-- A parameter as a number: a loop by its level, a factor by its value. -/
def Param.text (t : Forest) : Param → Except Error String
  | .loop id => do return (← t.node id).level.repr
  | .factor value => .ok value.toInt.repr

namespace Action

/-- All parameters as numbers. -/
def paramTexts (t : Forest) : List Param → Except Error (List String)
  | [] => .ok []
  | param :: rest => do
    let text ← param.text t
    let texts ← paramTexts t rest
    return text :: texts

/-- One argument of a short form: levels are marked with an `L`. -/
def argument (text : String) : Shape → String
  | .loop => "L" ++ text
  | .factor => text

/-- The compact form.  Which arguments are levels is the kind's decision,
and parameters beyond its layout are not shown. -/
def shortForm (a : Action) (t : Forest) : Except Error String := do
  let texts ← paramTexts t a.params
  return a.kind.tag ++ "(" ++ ",".intercalate (List.zipWith argument texts a.kind.shape) ++ ")"

/-- The call for one computation, its parameters already written. -/
def callLine (kind : Kind) (texts : List String) (computation : String) : String :=
  "\n\t" ++ computation ++ "." ++ kind.callName ++ "(" ++ ", ".intercalate texts ++ ");"

/-- The compiler call that applies the action to a computation. -/
def call (a : Action) (t : Forest) (computation : String) : Except Error String := do
  return callLine a.kind (← paramTexts t a.params) computation

/-- One compiler call for each target, in target order. -/
def calls (a : Action) (t : Forest) : Except Error String := do
  let texts ← paramTexts t a.params
  return String.join (a.computations.map (callLine a.kind texts))

end Action

end LoopNest
