import LoopNest.Forest.Basic

/-!
LoopNest.Forest.Interchange — two loops change places.

Each of the two keeps its id, name and bounds and takes over the other's
parent, children, computations and level:

    for i:            for j:
      for j:    ==>     for i:
        S                 S

When one is the parent of the other, the inner loop moves up and the outer
one hangs directly below it.  Only the two nodes, their parents and their
children are replaced, and the owners of their computations.

* `LoopId.swap` — which id stands where another stood;
* `Forest.interchange` — the change of places.
-/

namespace LoopNest

/-- The id that stands where `id` stood once `a` and `b` have changed
places. -/
def LoopId.swap (a b id : LoopId) : LoopId :=
  if id = a then b else if id = b then a else id

namespace Forest

/-- The node of one of two loops about to be interchanged. -/
def partner (t : Forest) (first second id : LoopId) : Except Error Node :=
  match t.nodes[id]? with
  | some node => .ok node
  | none => .error (.disconnected first second id)

/-- The places from which the two loops are listed: a parent, or none for
the list of roots.  A place that is one of the two loops is left out, and a
shared place is named once. -/
def listedFrom (a b : LoopId) (first second : Node) : List (Option LoopId) :=
  let outer := if first.parent = some b then [] else [first.parent]
  if second.parent = some a ∨ second.parent ∈ outer then outer else outer ++ [second.parent]

/-- Exchange the two loops in the child lists of the parents among some places. -/
def relist (swap : LoopId → LoopId) (nodes : LoopMap Node) :
    List (Option LoopId) → Except Error (LoopMap Node)
  | [] => .ok nodes
  | none :: rest => relist swap nodes rest
  | some parent :: rest =>
    match nodes[parent]? with
    | none => .error (.unknownLoop parent)
    | some node =>
      relist swap (nodes.insert parent { node with children := node.children.map swap }) rest

/-- Let children point back at their new parent. -/
def rehang (parent : LoopId) (nodes : LoopMap Node) : List LoopId → Except Error (LoopMap Node)
  | [] => .ok nodes
  | child :: rest =>
    match nodes[child]? with
    | none => .error (.unknownLoop child)
    | some node => rehang parent (nodes.insert child { node with parent := some parent }) rest

/-- Let one loop own some computations. -/
def reown (owner : LoopId) (owners : NameMap LoopId) (computations : List String) :
    NameMap LoopId :=
  computations.foldl (fun owners computation => owners.insert computation owner) owners

/-- The node of `a` at the place where `b` was.  If `a` was the parent of `b`,
then `b` is the parent of `a` now. -/
def moved (a b : LoopId) (own other : Node) : Node :=
  own.relocated (if other.parent = some a then some b else other.parent)
    (other.children.map (LoopId.swap a b)) other.computations other.level

/-- The children of a node, the two loops that change places left out. -/
def otherChildren (a b : LoopId) (n : Node) : List LoopId :=
  n.children.filter fun child => child ≠ a ∧ child ≠ b

/-- The forest in which two different loops, of which the nodes are given,
have changed places. -/
def exchange (t : Forest) (a b : LoopId) (first second : Node) : Except Error Forest := do
  let newA := moved a b first second
  let newB := moved b a second first
  let places := listedFrom a b first second
  let relisted ← relist (LoopId.swap a b) t.nodes places
  let hungA ← rehang a relisted (otherChildren a b newA)
  let hungB ← rehang b hungA (otherChildren a b newB)
  return { t with
    roots := if none ∈ places then t.roots.map (LoopId.swap a b) else t.roots
    nodes := (hungB.insert a newA).insert b newB
    owners := reown b (reown a t.owners newA.computations) newB.computations }

/-- The forest in which two loops have changed places; nothing happens to a
loop that changes places with itself.  An interchange that fails leaves no
forest behind, so the one at hand stays as it was. -/
def interchange (t : Forest) (a b : LoopId) : Except Error Forest := do
  let first ← t.partner a b a
  let second ← t.partner a b b
  if a = b then .ok t else t.exchange a b first second

end Forest

end LoopNest
