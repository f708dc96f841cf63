import LoopNest.Loop.Bound
import LoopNest.Error

/-!
LoopNest.Loop.Node — one loop of a nest.

A node is a value: it names its neighbours by id, and a forest replaces
nodes as wholes.  A node is made from a `Draft`, in which every field but
the name has to be given and which is checked as far as one loop alone can
be (`Draft.build`).
-/

namespace LoopNest

/-- One loop of a nest. -/
structure Node where
  id : LoopId
  /-- display name; may repeat -/
  name : String
  lower : Bound
  upper : Bound
  parent : Option LoopId
  /-- loops directly inside, in nesting order -/
  children : List LoopId
  /-- computations directly inside -/
  computations : List String
  /-- depth below the root, which is at level zero -/
  level : Nat
deriving DecidableEq, Inhabited

namespace Node

/-- A loop without a parent. -/
def isRoot (n : Node) : Bool := n.parent.isNone

/-- A loop without loops inside. -/
def isLeaf (n : Node) : Bool := n.children.isEmpty

/-- The only child of a loop without work of its own. -/
def passThrough? (n : Node) : Option LoopId :=
  match n.children, n.computations with
  | [child], [] => some child
  | _, _ => none

theorem passThrough?_eq_some_iff {n : Node} {child : LoopId} :
    n.passThrough? = some child ↔ n.children = [child] ∧ n.computations = [] := by
  obtain ⟨_, _, _, _, _, children, computations, _⟩ := n
  rcases children with _ | ⟨c, _ | ⟨d, rest⟩⟩ <;> rcases computations with _ | ⟨s, more⟩ <;>
    simp [passThrough?]

/-- A loop with exactly one child and no work of its own. -/
def isPassThrough (n : Node) : Bool := n.passThrough?.isSome

/-- The loop's head line, such as `i[0, N) L0`. -/
def text (n : Node) : String :=
  n.name ++ "[" ++ n.lower.text ++ ", " ++ n.upper.text ++ ") L" ++ n.level.repr

/-- The same loop, its name and bounds kept, at another node's place. -/
def relocated (n : Node) (parent : Option LoopId) (children : List LoopId)
    (computations : List String) (level : Nat) : Node :=
  { n with parent, children, computations, level }

end Node

/-- A node in the making.  `parent` tells a parent that was never given
from none. -/
structure Draft where
  id : Option LoopId := none
  name : Option String := none
  lower : Option Bound := none
  upper : Option Bound := none
  parent : Option (Option LoopId) := none
  children : Option (List LoopId) := none
  computations : Option (List String) := none
  level : Option Nat := none
deriving Inhabited

namespace Draft

/-- A field that has to be there. -/
def need {α : Type} (owner : LoopId) (field : NodeField) : Option α → Except Error α
  | some value => .ok value
  | none => .error (.invalidNode owner (.missing field))

/-- What a single node has to satisfy: roots, and they alone, are at level
zero, and no node is its own neighbour. -/
def validate (n : Node) : Except Error Node :=
  if n.parent = none ∧ n.level ≠ 0 then
    .error (.invalidNode n.id (.deepRoot n.level))
  else if n.parent ≠ none ∧ n.level = 0 then
    .error (.invalidNode n.id .shallowInner)
  else if n.id ∈ n.children ∨ n.parent = some n.id then
    .error (.invalidNode n.id .selfReference)
  else
    .ok n

/-- The node that a draft describes, named after its id unless it has a
name of its own. -/
def build (d : Draft) : Except Error Node := do
  let id ← need ⟨"<unnamed>"⟩ .id d.id
  let lower ← need id .lowerBound d.lower
  let upper ← need id .upperBound d.upper
  let parent ← need id .parent d.parent
  let children ← need id .children d.children
  let computations ← need id .computations d.computations
  let level ← need id .level d.level
  validate
    { id, name := d.name.getD id.text, lower, upper, parent, children, computations, level }

end Draft

end LoopNest
