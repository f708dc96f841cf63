import LoopNest.Forest.Walk

/-!
LoopNest.Forest.Check — a decision whether a forest is sound.

The check goes down from the roots and compares each parent with each of
its children: link and level.  It counts the loops it has met, and last it
asks of every owner whether it holds what it is said to hold.
-/

namespace LoopNest

namespace Forest

/-- Whether the children of a node name it as their parent and lie one level
deeper. -/
def checkChildren (t : Forest) (id : LoopId) (node : Node) : List LoopId → Except Error Unit
  | [] => .ok ()
  | child :: rest => do
    let below ← t.node child
    if below.parent ≠ some id then .error (.invalidNode child .parentLinkDisagrees)
    else if below.level ≠ node.level + 1 then .error (.invalidNode child .levelDisagrees)
    else t.checkChildren id node rest

/-- Check the loops of a walk; `seen` holds those met before, and the answer
holds those as well. -/
def checkLoops (t : Forest) (seen : List LoopId) : List LoopId → Except Error (List LoopId)
  | [] => .ok seen
  | id :: rest =>
    if id ∈ seen then .error (.invalidNode id .reachedTwice)
    else do
      let node ← t.node id
      t.checkChildren id node node.children
      t.checkLoops (id :: seen) rest

/-- Check the loops inside each root. -/
def checkRoots (t : Forest) (seen : List LoopId) : List LoopId → Except Error (List LoopId)
  | [] => .ok seen
  | root :: rest => do
    let node ← t.node root
    if node.parent ≠ none ∨ node.level ≠ 0 then .error (.invalidNode root .badRoot)
    else do
      let order ← t.preorder root
      let seen ← t.checkLoops seen order
      t.checkRoots seen rest

/-- Check that owners hold what they are said to hold. -/
def checkOwners (t : Forest) : List (String × LoopId) → Except Error Unit
  | [] => .ok ()
  | (computation, owner) :: rest => do
    let node ← t.node owner
    if computation ∈ node.computations then t.checkOwners rest
    else .error (.invalidNode owner (.withoutComputation computation))

/-- Whether the forest is sound. -/
def check (t : Forest) : Except Error Unit := do
  let seen ← t.checkRoots [] t.roots
  if seen.length = t.size then t.checkOwners t.owners.toList
  else .error (.invalidTable (.strays (t.size - seen.length)))

end Forest

end LoopNest
