import LoopNest.OrderedMap
import LoopNest.Forest.Walk

/-!
LoopNest.Forest.Section — a forest cut into chains.

A section starts at a root, or where another section branches, and runs
down through loops with one child and no work of their own.  It ends with
the first loop that has computations, no children, or several.  The
children of that last loop each start a section of their own.  Sections
are found breadth first, root by root.
-/

namespace LoopNest

/-- A chain of loops, outermost first. -/
abbrev Section := List LoopId

namespace Forest

/-- The section that starts at a loop, with the children of its last loop.
A chain through more loops than `fuel` has met one of them twice. -/
def chain (t : Forest) : Nat → LoopId → Except Error (Section × List LoopId)
  | 0, id => do
    let _ ← t.node id
    .error (.invalidNode id .reachedTwice)
  | fuel + 1, id => do
    let node ← t.node id
    match node.passThrough? with
    | none => return ([id], node.children)
    | some child =>
      let (rest, starts) ← t.chain fuel child
      return (id :: rest, starts)

/-- The sections that start at the loops of a queue and below them, at most
`fuel` of them. -/
def sectionsFrom (t : Forest) : Nat → List LoopId → Except Error (List Section)
  | _, [] => .ok []
  | 0, id :: _ => do
    let _ ← t.node id
    .error (.invalidNode id .reachedTwice)
  | fuel + 1, id :: queue => do
    let (chain, starts) ← t.chain t.size id
    let sections ← t.sectionsFrom fuel (queue ++ starts)
    return chain :: sections

/-- What a computation on single roots gives for each of them, in order. -/
def perRoot {α : Type} (f : LoopId → Except Error α) (found : OrderedMap LoopId α) :
    List LoopId → Except Error (OrderedMap LoopId α)
  | [] => .ok found
  | root :: rest => do
    let value ← f root
    perRoot f (found.insert root value) rest

/-- The sections of every root. -/
def sections (t : Forest) : Except Error (OrderedMap LoopId (List Section)) :=
  perRoot (fun root => t.sectionsFrom t.size [root]) .empty t.roots

end Forest

end LoopNest
