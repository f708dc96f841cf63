/-!
LoopNest.Loop.Bound — extents of a loop.

A bound is kept as it was given: a 64-bit constant or an expression in
the program's own symbols.  Nothing here evaluates it.
-/

namespace LoopNest

/-- One end of a loop's extent. -/
inductive Bound where
  | constant (value : Int64)
  | symbolic (expression : String)
deriving DecidableEq, Inhabited

/-- A constant in decimal, an expression as it stands. -/
def Bound.text : Bound → String
  | .constant value => value.toInt.repr
  | .symbolic expression => expression

end LoopNest
