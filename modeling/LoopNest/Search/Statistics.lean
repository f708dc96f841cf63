import LoopNest.Duration

/-!
LoopNest.Search.Statistics — the bounds of a search and its counters.
-/

namespace LoopNest

/-- The bounds of a search; none is no bound. -/
structure SearchLimits where
  /-- candidates looked at for one root before giving up on it -/
  candidatesPerRoot : Option Nat := none
  /-- oracle calls for the whole search -/
  oracleCalls : Option Nat := none
deriving DecidableEq, Repr, Inhabited

namespace SearchLimits

/-- Whether another oracle call is allowed after `used` calls. -/
def allowsCall (limits : SearchLimits) (used : Nat) : Bool :=
  match limits.oracleCalls with
  | none => true
  | some most => used < most

/-- The candidates of one root that are looked at. -/
def cut {α : Type} (limits : SearchLimits) (candidates : List α) : List α :=
  match limits.candidatesPerRoot with
  | none => candidates
  | some most => candidates.take most

end SearchLimits

/-- What a search counts. -/
structure Statistics where
  /-- roots looked at -/
  rootsVisited : Nat := 0
  /-- candidates made into a trial schedule -/
  candidatesTried : Nat := 0
  /-- candidates without computations, dropped before any trial -/
  candidatesSkipped : Nat := 0
  /-- verdicts asked for -/
  oracleCalls : Nat := 0
  /-- trials that became the best schedule -/
  accepted : Nat := 0
  /-- trials judged illegal -/
  rejected : Nat := 0
  /-- trials dropped because the oracle failed -/
  oracleFailures : Nat := 0
deriving DecidableEq, Repr, Inhabited

/-- The counters in a message, with the time that the search took, in
seconds to the millisecond. -/
def Statistics.text (s : Statistics) (elapsed : Duration) : String :=
  s.rootsVisited.repr ++ " roots, " ++ s.candidatesTried.repr ++ " candidates tried (" ++
    s.candidatesSkipped.repr ++ " skipped), " ++ s.oracleCalls.repr ++ " oracle calls, " ++
    s.accepted.repr ++ " accepted, " ++ s.rejected.repr ++ " rejected, " ++
    s.oracleFailures.repr ++ " oracle failures in " ++ fixedText 3 elapsed.seconds ++ "s"

end LoopNest
