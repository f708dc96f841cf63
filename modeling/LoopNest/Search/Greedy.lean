import LoopNest.Action.Candidate
import LoopNest.Schedule.Basic
import LoopNest.Search.Statistics

/-!
LoopNest.Search.Greedy — sequential parallelization.

For every root in turn, the first loop that the oracle accepts is marked
parallel.  Each trial extends a copy of the best schedule so far; an
accepted trial becomes the best schedule and the search goes on to the
next root.  A trial that is illegal, or on which the oracle fails, is
dropped; any other error ends the search.

* `Search.tryCandidates` — the candidates of one root;
* `Search.tryRoots` — root after root;
* `Search.run` — the whole search, with the queries it put.
-/

namespace LoopNest

namespace Search

/-- The name of the strategy. -/
def strategyName : String := "sequential-parallelization"

/-- How far a search has come. -/
structure Progress where
  /-- the last accepted trial, or the empty schedule -/
  best : Schedule
  statistics : Statistics := {}
  /-- what the oracle was asked, the oldest query first -/
  asked : List Query := []

/-- Why a search ends before its last root. -/
inductive Halt where
  /-- all allowed oracle calls are used up -/
  | spent
  /-- an error that no candidate can be blamed for -/
  | failed (e : Error)

/-- The actions that mark the loops of a candidate parallel.  A loop without
computations inside gives none. -/
def actionsOf (t : Forest) : Candidate → Except Error (List Action)
  | [] => .ok []
  | loop :: rest => do
    let computations ← t.subtreeComputations loop
    if computations.isEmpty then actionsOf t rest
    else
      let action ← Action.parallelization loop computations
      let actions ← actionsOf t rest
      return action :: actions

namespace Progress

/-- Another root is looked at. -/
def visit (p : Progress) : Progress :=
  { p with statistics.rootsVisited := p.statistics.rootsVisited + 1 }

/-- A candidate is skipped. -/
def skip (p : Progress) : Progress :=
  { p with statistics.candidatesSkipped := p.statistics.candidatesSkipped + 1 }

/-- A trial is put to the oracle. -/
def ask (p : Progress) (asked : List Query) : Progress :=
  { p with
    statistics.candidatesTried := p.statistics.candidatesTried + 1
    statistics.oracleCalls := p.statistics.oracleCalls + 1
    asked }

/-- A trial becomes the best schedule. -/
def accept (p : Progress) (trial : Schedule) : Progress :=
  { p with best := trial, statistics.accepted := p.statistics.accepted + 1 }

/-- A trial is illegal. -/
def reject (p : Progress) : Progress :=
  { p with statistics.rejected := p.statistics.rejected + 1 }

/-- A trial is dropped because the oracle failed. -/
def drop (p : Progress) : Progress :=
  { p with statistics.oracleFailures := p.statistics.oracleFailures + 1 }

end Progress

/-- Try the candidates of one root until one is accepted. -/
def tryCandidates (limits : SearchLimits) (oracle : Oracle) (t : Forest) :
    List Candidate → Progress → Progress × Option Halt
  | [], p => (p, none)
  | candidate :: rest, p =>
    if !limits.allowsCall p.statistics.oracleCalls then (p, some .spent)
    else
      match actionsOf t candidate with
      | .error e => (p, some (.failed e))
      | .ok [] => tryCandidates limits oracle t rest p.skip
      | .ok actions =>
        match (p.best.append actions).judge oracle p.asked with
        | (.ok true, trial, asked) => ((p.ask asked).accept trial, none)
        | (.ok false, _, asked) => tryCandidates limits oracle t rest (p.ask asked).reject
        | (.error e, _, asked) =>
          if e.isOracleFailure then tryCandidates limits oracle t rest (p.ask asked).drop
          else (p.ask asked, some (.failed e))

/-- Go through the roots, trying the candidates of each. -/
def tryRoots (limits : SearchLimits) (oracle : Oracle) (t : Forest)
    (candidates : OrderedMap LoopId (List Candidate)) :
    List LoopId → Progress → Progress × Option Halt
  | [], p => (p, none)
  | root :: rest, p =>
    match candidates.get? root with
    | none => tryRoots limits oracle t candidates rest p.visit
    | some found =>
      match tryCandidates limits oracle t (limits.cut found) p.visit with
      | (p, none) => tryRoots limits oracle t candidates rest p
      | (p, some halt) => (p, some halt)

/-- What a search found. -/
structure Outcome where
  /-- the accepted schedule, or none when nothing was ever accepted -/
  schedule : Option Schedule
  statistics : Statistics

/-- The outcome of a search that has come so far. -/
def Progress.outcome (p : Progress) : Outcome :=
  ⟨if p.best.isEmpty then none else some p.best, p.statistics⟩

/-- Search for a parallel schedule of a program, with the queries put to the
oracle, the oldest first. -/
def run (limits : SearchLimits) (oracle : Oracle) (program : Program) : Consulted Outcome :=
  match Kind.parallelization.candidates program.forest with
  | .error e => (.error e, [])
  | .ok candidates =>
    match tryRoots limits oracle program.forest candidates program.forest.roots
        { best := .empty program } with
    | (p, some (.failed e)) => (.error e, p.asked)
    | (p, _) => (.ok p.outcome, p.asked)

end Search

end LoopNest
