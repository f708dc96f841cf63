import LoopNest.Forest.Basic

/-!
LoopNest.Forest.Walk — pre-order walks.

A walk keeps the loops still to be visited on a stack and puts the
children of each visited loop on top of it.  A forest visits each of its
loops at most once, so a walk that is longer than the forest has loops has
met one of them twice and is given up.

* `Forest.preorder` — a loop and everything inside it, outer before inner
  and earlier before later;
* `Forest.order` — the whole forest that way;
* `Forest.subtreeComputations` — the computations inside a loop.
-/

namespace LoopNest

namespace Forest

/-- Visit the loops on a stack and everything inside them, at most `fuel`
loops in all. -/
def walk (t : Forest) : Nat → List LoopId → Except Error (List LoopId)
  | _, [] => .ok []
  | 0, id :: _ => do
    let _ ← t.node id
    .error (.invalidNode id .reachedTwice)
  | fuel + 1, id :: rest => do
    let node ← t.node id
    let order ← t.walk fuel (node.children ++ rest)
    return id :: order

/-- A loop and everything inside it, in pre-order. -/
def preorder (t : Forest) (id : LoopId) : Except Error (List LoopId) :=
  t.walk t.size [id]

/-- Several loops and everything inside them, loop after loop. -/
def preorders (t : Forest) : List LoopId → Except Error (List LoopId)
  | [] => .ok []
  | id :: rest => do
    let order ← t.preorder id
    let others ← t.preorders rest
    return order ++ others

/-- The whole forest in pre-order, root after root. -/
def order (t : Forest) : Except Error (List LoopId) := t.preorders t.roots

/-- The computations directly inside some loops, each with the loop that
holds it. -/
def holdings (t : Forest) : List LoopId → Except Error (List (LoopId × String))
  | [] => .ok []
  | id :: rest => do
    let node ← t.node id
    let others ← t.holdings rest
    return node.computations.map (fun computation => (id, computation)) ++ others

/-- The computations anywhere inside a loop: its own, then those of its
children in order. -/
def subtreeComputations (t : Forest) (id : LoopId) : Except Error (List String) := do
  let order ← t.preorder id
  let held ← t.holdings order
  return held.map Prod.snd

end Forest

end LoopNest
