import LoopNest.Loop.Node

/-!
LoopNest.Forest.Basic — the loop nests of a program as a forest.

Nodes refer to each other by id only, and the forest owns every node
through a map keyed by id.  Beside the nodes it keeps three indices: the
computations in canonical order, the loop holding each, and their ranks.

Two forests are equal exactly when their roots, nodes and indices are.
-/

namespace LoopNest

/-- A forest of loops. -/
structure Forest where
  /-- the outermost loops, in program order -/
  roots : List LoopId
  nodes : LoopMap Node
  /-- all computations in canonical order -/
  computations : List String
  /-- the loop holding a computation -/
  owners : NameMap LoopId
  /-- the position of a computation in canonical order, from one -/
  ranks : NameMap Nat
deriving DecidableEq

namespace Forest

/-- The forest without loops. -/
def empty : Forest := ⟨[], ∅, [], ∅, ∅⟩

instance : Inhabited Forest := ⟨empty⟩

/-- Number of loops. -/
def size (t : Forest) : Nat := t.nodes.size

/-- Whether there are no loops. -/
def isEmpty (t : Forest) : Bool := t.nodes.isEmpty

/-- Whether a loop of this id is there. -/
def contains (t : Forest) (id : LoopId) : Bool := t.nodes.contains id

/-- The node of a loop. -/
def node (t : Forest) (id : LoopId) : Except Error Node :=
  match t.nodes[id]? with
  | some node => .ok node
  | none => .error (.unknownLoop id)

/-- The position of a computation in canonical order, from one. -/
def rank? (t : Forest) (computation : String) : Option Nat := t.ranks[computation]?

/-- The levels of some loops. -/
def levels (t : Forest) : List LoopId → Except Error (List Nat)
  | [] => .ok []
  | id :: rest => do
    let node ← t.node id
    let levels ← t.levels rest
    return node.level :: levels

end Forest

end LoopNest
