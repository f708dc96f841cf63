import LoopNest.Table.Basic
import LoopNest.Forest.Walk

/-!
LoopNest.Forest.Build — the forest that an annotation describes.

References are checked over the whole table first.  Levels are then given
breadth first from the roots, and a loop that this does not reach is a
stray.  Last, a pre-order walk over the roots lists the computations.

* `Table.settle` — the breadth-first pass;
* `Forest.indexed` — the three indices of a forest;
* `Forest.ofTable` — all of it.
-/

namespace LoopNest

/-- The node of an entry at a level. -/
def Entry.draft (id : LoopId) (entry : Entry) (level : Nat) : Draft where
  id := some id
  lower := some entry.lower
  upper := some entry.upper
  parent := some entry.parent
  children := some entry.children
  computations := some entry.computations
  level := some level

/-- Turn the entries on a queue, each with its level, into nodes, the
children of each joining the queue one level deeper.  At most `fuel`
entries are taken up: a table whose references agree leaves none on the
queue after as many as it has entries. -/
def Table.settle (a : Table) : Nat → List (LoopId × Nat) → Except Error (List Node)
  | _, [] => .ok []
  | 0, (id, _) :: _ => do
    let _ ← a.entry id
    .error (.invalidNode id .reachedTwice)
  | fuel + 1, (id, level) :: queue => do
    let entry ← a.entry id
    let node ← (entry.draft id level).build
    let nodes ← a.settle fuel (queue ++ entry.children.map fun child => (child, level + 1))
    return node :: nodes

namespace Forest

/-- Nodes stored under their ids. -/
def store (nodes : List Node) : LoopMap Node :=
  nodes.foldl (fun stored node => stored.insert node.id node) ∅

/-- Give every computation its owner.  A computation has one owner only. -/
def claim (owners : NameMap LoopId) : List (LoopId × String) → Except Error (NameMap LoopId)
  | [] => .ok owners
  | (id, computation) :: rest =>
    match owners[computation]? with
    | some owner => .error (.invalidNode id (.takenComputation computation owner))
    | none => claim (owners.insert computation id) rest

/-- Number names from `next` on. -/
def rankFrom (next : Nat) (ranks : NameMap Nat) : List String → NameMap Nat
  | [] => ranks
  | computation :: rest => rankFrom (next + 1) (ranks.insert computation next) rest

/-- The forest with its indices made afresh from roots and nodes. -/
def indexed (t : Forest) : Except Error Forest := do
  let order ← t.order
  let held ← t.holdings order
  let owners ← claim ∅ held
  let computations := held.map Prod.snd
  return { t with computations, owners, ranks := rankFrom 1 ∅ computations }

/-- The forest that an annotation describes. -/
def ofTable (a : Table) : Except Error Forest := do
  a.crossCheck a.loops.entries
  if a.roots = [] ∧ a.loops.entries ≠ [] then .error (.invalidTable .noRoot)
  else do
    let settled ← a.settle a.loops.size (a.roots.map fun root => (root, 0))
    match a.loops.keys.find? fun id => !(store settled).contains id with
    | some stray => .error (.invalidNode stray .unreachable)
    | none => ({ empty with roots := a.roots, nodes := store settled } : Forest).indexed

end Forest

end LoopNest
