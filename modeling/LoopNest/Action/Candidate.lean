import LoopNest.Forest.Ancestry
import LoopNest.Forest.Section

/-!
LoopNest.Action.Candidate — the loops that a kind of transformation could
be tried on.

A candidate names loops only; factors are chosen later, by the caller or
by the oracle.  Candidates are grouped by root, in root order.

* parallelization and reversal: every loop, in section order;
* skewing and tiling: two successive loops of one section;
* interchange: two siblings, or an ancestor and a descendant;
* unrolling: every innermost loop that has computations.
-/

namespace LoopNest

/-- The loops of one candidate, outermost first. -/
abbrev Candidate := List LoopId

namespace Forest

/-- Each loop of a list with the one after it. -/
def adjacentPairs : List LoopId → List Candidate
  | outer :: inner :: rest => [outer, inner] :: adjacentPairs (inner :: rest)
  | _ => []

/-- Those of some loops that are siblings of a loop or inside it, each paired
with it. -/
def partnersOf (t : Forest) (first : LoopId) : List LoopId → Except Error (List Candidate)
  | [] => .ok []
  | second :: rest => do
    let siblings ← t.areSiblings first second
    let related ← if siblings then pure true else t.isAncestor first second
    let others ← t.partnersOf first rest
    return if related then [first, second] :: others else others

/-- The pairs of loops that can be interchanged, each loop of a walk being
paired with loops after it. -/
def interchangePairs (t : Forest) : List LoopId → Except Error (List Candidate)
  | [] => .ok []
  | first :: rest => do
    let pairs ← t.partnersOf first rest
    let others ← t.interchangePairs rest
    return pairs ++ others

/-- The loops of a walk that have computations and no loops inside. -/
def innermost (t : Forest) : List LoopId → Except Error (List Candidate)
  | [] => .ok []
  | id :: rest => do
    let node ← t.node id
    let others ← t.innermost rest
    return if node.isLeaf && !node.computations.isEmpty then [id] :: others else others

end Forest

/-- The candidates of a kind in a forest. -/
def Kind.candidates (kind : Kind) (t : Forest) :
    Except Error (OrderedMap LoopId (List Candidate)) :=
  match kind with
  | .parallelization | .reversal => do
    let sections ← t.sections
    return sections.map fun _ sections => sections.flatten.map fun id => [id]
  | .skewing | .tiling2d => do
    let sections ← t.sections
    return sections.map fun _ sections => sections.flatMap Forest.adjacentPairs
  | .interchange =>
    Forest.perRoot (fun root => do t.interchangePairs (← t.preorder root)) .empty t.roots
  | .unrolling =>
    Forest.perRoot (fun root => do t.innermost (← t.preorder root)) .empty t.roots

end LoopNest
