import LoopNest.Forest.Basic

/-!
LoopNest.Forest.Ancestry — questions answered by following parents.

In a forest the way up from any loop ends at a root after fewer steps than
there are loops.  The questions below count their steps against that, so
they also end where parent links run in a circle.
-/

namespace LoopNest

namespace Forest

/-- Follow parents from a node for at most `fuel` looks; `start` is the loop
that the question was about. -/
def climbToRoot (t : Forest) (start : LoopId) : Nat → Node → Except Error LoopId
  | 0, _ => .error (.invalidNode start .rootless)
  | fuel + 1, node =>
    match node.parent with
    | none => .ok node.id
    | some parent => do
      let above ← t.node parent
      t.climbToRoot start fuel above

/-- The root above a loop, the loop itself if it is one. -/
def rootOf (t : Forest) (id : LoopId) : Except Error LoopId := do
  t.climbToRoot id t.size (← t.node id)

/-- The number of ancestors of a node, when there are no more than `fuel`. -/
def countAncestors (t : Forest) (start : LoopId) : Nat → Node → Except Error Nat
  | fuel, node =>
    match node.parent, fuel with
    | none, _ => .ok 0
    | some _, 0 => .error (.invalidNode start .cyclicParents)
    | some parent, fuel + 1 => do
      let above ← t.node parent
      let count ← t.countAncestors start fuel above
      return count + 1

/-- The level of a loop, found by counting its ancestors and not by looking
at the level it carries. -/
def levelOf (t : Forest) (id : LoopId) : Except Error Nat := do
  t.countAncestors id t.size (← t.node id)

/-- Whether `ancestor` is among the first `fuel` ancestors of a node. -/
def climbsTo (t : Forest) (ancestor : LoopId) : Nat → Node → Except Error Bool
  | 0, _ => .ok false
  | fuel + 1, node =>
    match node.parent with
    | none => .ok false
    | some parent =>
      if parent = ancestor then .ok true
      else do
        let above ← t.node parent
        t.climbsTo ancestor fuel above

/-- Whether `ancestor` lies strictly above `descendant`. -/
def isAncestor (t : Forest) (ancestor descendant : LoopId) : Except Error Bool := do
  let node ← t.node descendant
  let _ ← t.node ancestor
  t.climbsTo ancestor t.size node

/-- Whether two different loops have the same parent.  Roots are no one's
siblings. -/
def areSiblings (t : Forest) (a b : LoopId) : Except Error Bool := do
  let first ← t.node a
  let second ← t.node b
  return a ≠ b && first.parent.isSome && first.parent == second.parent

/-- The ancestor of a node at a level no deeper than its own. -/
def climbToLevel (t : Forest) (level : Nat) : Nat → Node → Except Error Node
  | fuel, node =>
    if node.level ≤ level then .ok node
    else
      match node.parent, fuel with
      | none, _ => .error (.invalidNode node.id .orphaned)
      | some _, 0 => .error (.invalidNode node.id .cyclicParents)
      | some parent, fuel + 1 => do
        let above ← t.node parent
        t.climbToLevel level fuel above

/-- The loop holding a computation or, if a level is given, the loop at that
level around it. -/
def loopOf (t : Forest) (computation : String) (level : Option Nat) : Except Error Node :=
  match t.owners[computation]? with
  | none => .error (.unknownComputation computation)
  | some owner => do
    let node ← t.node owner
    match level with
    | none => return node
    | some level =>
      if node.level < level then .error (.levelOutOfRange computation level node.level)
      else t.climbToLevel level t.size node

end Forest

end LoopNest
