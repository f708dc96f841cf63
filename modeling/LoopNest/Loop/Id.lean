import Std.Data.ExtTreeMap
import Std.Data.ExtTreeMap.Lemmas

/-!
LoopNest.Loop.Id — names of loops, and finite maps keyed by them.

A loop is looked up by its id and by nothing else; its display name may
repeat, its id never does.  Ids are ordered by their text, code point by
code point, so a map keyed by ids has one listing only, and two such maps
are equal exactly when they answer every look-up alike.
-/

namespace LoopNest

/-- The id of a loop. -/
structure LoopId where
  text : String
deriving DecidableEq, Repr, Inhabited

instance : Ord LoopId := ⟨compareOn LoopId.text⟩

instance : Std.TransOrd LoopId :=
  inferInstanceAs (Std.TransCmp (compareOn LoopId.text))

instance : Std.LawfulEqOrd LoopId where
  eq_of_compare {a b} h := by
    cases a; cases b
    congr
    exact Std.LawfulEqOrd.eq_of_compare h

/-- A finite map from loop ids. -/
abbrev LoopMap (α : Type) := Std.ExtTreeMap LoopId α compare

/-- A finite map from names, of computations for one. -/
abbrev NameMap (α : Type) := Std.ExtTreeMap String α compare

end LoopNest
