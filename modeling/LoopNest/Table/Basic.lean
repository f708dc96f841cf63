import LoopNest.OrderedMap
import LoopNest.Loop.Bound
import LoopNest.Error

/-!
LoopNest.Table.Basic — the declarative description of a program's
loops.

An annotation is a table of entries, one per loop, in the order in which
they were written: the order of a forest's roots is taken from it.
Entries may stand in any other order.  Parents and children are both
written down, and `Table.crossCheck` says whether they agree.
-/

namespace LoopNest

/-- What an annotation says about one loop. -/
structure Entry where
  parent : Option LoopId
  lower : Bound
  upper : Bound
  children : List LoopId := []
  computations : List String := []
deriving DecidableEq, Inhabited

/-- The loops of a program, as written. -/
structure Table where
  loops : OrderedMap LoopId Entry
deriving DecidableEq, Inhabited

namespace Table

/-- The entry of a loop. -/
def entry (a : Table) (id : LoopId) : Except Error Entry :=
  match a.loops.get? id with
  | some entry => .ok entry
  | none => .error (.unknownLoop id)

/-- The loops without a parent, in table order. -/
def roots (a : Table) : List LoopId :=
  (a.loops.entries.filter fun p => p.2.parent.isNone).map Prod.fst

/-- The parent that an entry names has to be in the table and to list it. -/
def checkParent (a : Table) (id : LoopId) : Option LoopId → Except Error Unit
  | none => .ok ()
  | some parent =>
    match a.loops.get? parent with
    | none => .error (.missingParent id parent)
    | some above =>
      if id ∈ above.children then .ok () else .error (.invalidNode id (.unlistedBy parent))

/-- Every child that an entry lists has to be in the table, to name the
lister as its parent and to be listed once.  `seen` holds the children met
so far. -/
def checkChildren (a : Table) (id : LoopId) (seen : List LoopId) :
    List LoopId → Except Error Unit
  | [] => .ok ()
  | child :: rest =>
    match a.loops.get? child with
    | none => .error (.unknownLoop child)
    | some below =>
      if below.parent ≠ some id then .error (.invalidNode child (.claimedBy id))
      else if child ∈ seen then .error (.invalidNode id (.repeatedChild child))
      else a.checkChildren id (child :: seen) rest

/-- Whether parents and children agree, entry by entry in table order. -/
def crossCheck (a : Table) : List (LoopId × Entry) → Except Error Unit
  | [] => .ok ()
  | (id, entry) :: rest => do
    a.checkParent id entry.parent
    a.checkChildren id [] entry.children
    a.crossCheck rest

end Table

end LoopNest
