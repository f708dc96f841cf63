import LoopNest.Forest.Walk

/-!
LoopNest.Forest.Text — a forest as an indented outline, one loop a line.
-/

namespace LoopNest

/-- The line of a loop: two blanks for each level, the loop, and its
computations in braces if it has any. -/
def Node.line (n : Node) : String :=
  "".pushn ' ' (2 * n.level) ++ n.text ++
    (if n.computations.isEmpty then ""
     else " \x7b" ++ ", ".intercalate n.computations ++ "\x7d") ++ "\n"

/-- The lines of all loops in pre-order, root after root.  A root that
cannot be walked is left out. -/
def Forest.text (t : Forest) : String :=
  String.join (t.roots.map fun root =>
    match t.preorder root with
    | .ok order => String.join (order.map fun id => (t.nodes[id]?.map Node.line).getD "")
    | .error _ => "")

end LoopNest
