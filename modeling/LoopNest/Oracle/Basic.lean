import LoopNest.Action.Basic
import LoopNest.Program

/-!
LoopNest.Oracle.Basic — the judge of schedules.

An oracle is asked whether a schedule is legal, or which factors make a
skewing legal.  Nothing is assumed of its answers: each may depend on
everything it has been asked before.  So an oracle is a function of the
queries already put to it and of the present one, and whoever asks keeps
the record of queries.
-/

namespace LoopNest

/-- Something that an oracle was asked. -/
inductive Query where
  /-- does applying the actions in order keep what the program computes? -/
  | legality (program : Program) (schedule : List Action)
  /-- which factors skew the loops at two levels, after the actions? -/
  | skewing (program : Program) (schedule : List Action) (levels : Nat × Nat)
      (computations : List String)
deriving DecidableEq

/-- A source of verdicts.  The first argument of both functions is what was
asked before, the oldest query first. -/
structure Oracle where
  name : String := "oracle"
  /-- whether a schedule is legal -/
  judge : List Query → Program → List Action → Except Error Bool
  /-- factors for a skewing, or none if there are none -/
  solve : List Query → Program → List Action → Nat × Nat → List String →
    Except Error (Option (Int64 × Int64))

/-- An answer together with the record of queries after it. -/
abbrev Consulted (α : Type) := Except Error α × List Query

namespace Oracle

/-- Ask for a verdict. -/
def askLegality (oracle : Oracle) (asked : List Query) (program : Program)
    (schedule : List Action) : Consulted Bool :=
  (oracle.judge asked program schedule, asked ++ [.legality program schedule])

/-- Ask for factors. -/
def askSkewing (oracle : Oracle) (asked : List Query) (program : Program)
    (schedule : List Action) (levels : Nat × Nat) (computations : List String) :
    Consulted (Option (Int64 × Int64)) :=
  (oracle.solve asked program schedule levels computations,
    asked ++ [.skewing program schedule levels computations])

/-- The element of a list that comes after `n` others, or a fallback. -/
def nth {α : Type} (answers : List α) (fallback : α) (n : Nat) : α :=
  (answers[n]?).getD fallback

/-- Whether a query asks for a verdict. -/
def isLegality : Query → Bool
  | .legality _ _ => true
  | .skewing _ _ _ _ => false

/-- An oracle that reads its answers off two lists, whatever it is asked, and
falls back on one answer each when a list is used up. -/
def scripted (verdicts : List (Except Error Bool)) (verdict : Except Error Bool)
    (factors : List (Except Error (Option (Int64 × Int64))))
    (factor : Except Error (Option (Int64 × Int64))) : Oracle where
  judge := fun asked _ _ => nth verdicts verdict (asked.countP isLegality)
  solve := fun asked _ _ _ _ =>
    nth factors factor (asked.countP fun query => !isLegality query)

end Oracle

end LoopNest
