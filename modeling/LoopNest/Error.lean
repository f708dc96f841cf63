import LoopNest.Loop.Id
import LoopNest.Action.Kind
import LoopNest.Oracle.Outage

/-!
LoopNest.Error — what can go wrong, by cause.

Structural errors (a malformed annotation, an id that is not there, bad
parameters) are mistakes of the caller and end the operation that met
them.  Outages and unsolved skewings come from the oracle; a search turns
them into a rejected candidate (`Error.isOracleFailure`).

Each error carries its cause as data.  The wording is in the `message`
functions and nowhere else.  An oracle may report errors of its own, so
every kind of error can also carry names and words that this library does
not know (`stated`).
-/

namespace LoopNest

/-- What a loop was described without. -/
inductive NodeField where
  | id
  | lowerBound
  | upperBound
  | parent
  | children
  | computations
  | level
deriving DecidableEq, Repr, Inhabited

/-- The word for a field of a loop. -/
def NodeField.text : NodeField → String
  | .id => "id"
  | .lowerBound => "lower bound"
  | .upperBound => "upper bound"
  | .parent => "parent"
  | .children => "children"
  | .computations => "computations"
  | .level => "level"

/-- What is wrong with one loop. -/
inductive NodeDefect where
  /-- a field was never given -/
  | missing (field : NodeField)
  /-- no parent, yet not at level zero -/
  | deepRoot (level : Nat)
  /-- a parent, yet at level zero -/
  | shallowInner
  /-- the loop is its own child or parent -/
  | selfReference
  /-- its parent does not list it -/
  | unlistedBy (parent : LoopId)
  /-- another loop lists it than the one it names -/
  | claimedBy (lister : LoopId)
  /-- it lists a child twice -/
  | repeatedChild (child : LoopId)
  /-- no root leads to it -/
  | unreachable
  /-- one of its computations is held elsewhere -/
  | takenComputation (computation : String) (owner : LoopId)
  /-- a walk meets it twice -/
  | reachedTwice
  /-- following parents from it never ends -/
  | rootless
  /-- following parents from it comes back -/
  | cyclicParents
  /-- it lies below level zero without a parent -/
  | orphaned
  /-- a root with a parent or away from level zero -/
  | badRoot
  /-- listed by one loop, its parent link names another -/
  | parentLinkDisagrees
  /-- its level is not one more than its parent's -/
  | levelDisagrees
  /-- it is said to hold a computation that it does not hold -/
  | withoutComputation (computation : String)
  /-- any other defect, in words -/
  | stated (text : String)
deriving DecidableEq, Repr, Inhabited

/-- The wording of a defect. -/
def NodeDefect.message : NodeDefect → String
  | .missing field => "missing " ++ field.text
  | .deepRoot level => "root must be at level 0, got " ++ level.repr
  | .shallowInner => "non-root node at level 0"
  | .selfReference => "node references itself"
  | .unlistedBy parent => "parent " ++ parent.text ++ " does not list it as a child"
  | .claimedBy lister => "listed as a child of " ++ lister.text ++ " but names another parent"
  | .repeatedChild child => "child " ++ child.text ++ " listed twice"
  | .unreachable => "not reachable from any root"
  | .takenComputation computation owner =>
    "computation " ++ computation ++ " already attached to " ++ owner.text
  | .reachedTwice => "reachable twice"
  | .rootless => "parent chain does not end at a root"
  | .cyclicParents => "parent chain contains a cycle"
  | .orphaned => "non-root without parent"
  | .badRoot => "root with parent or non-zero level"
  | .parentLinkDisagrees => "parent link disagrees with child list"
  | .levelDisagrees => "level is not parent level + 1"
  | .withoutComputation computation => "does not hold " ++ computation
  | .stated text => text

/-- What is wrong with an annotation as a whole. -/
inductive TableDefect where
  /-- there are loops, yet every one names a parent -/
  | noRoot
  /-- so many loops are stored that no root leads to -/
  | strays (count : Nat)
  /-- any other defect, in words -/
  | stated (text : String)
deriving DecidableEq, Repr, Inhabited

/-- The wording of a defect of an annotation. -/
def TableDefect.message : TableDefect → String
  | .noRoot => "no root iterator"
  | .strays count => count.repr ++ " iterators unreachable from the roots"
  | .stated text => text

/-- The transformation that an error is about. -/
inductive Subject where
  | kind (kind : Kind)
  /-- one that only the oracle knows, by its name -/
  | stated (name : String)
deriving DecidableEq, Repr, Inhabited

instance : Coe Kind Subject := ⟨.kind⟩

/-- The name of the transformation. -/
def Subject.name : Subject → String
  | .kind k => k.name
  | .stated name => name

/-- What a parameter should have been. -/
inductive Expected where
  | shape (shape : Shape)
  /-- anything else, in words -/
  | stated (text : String)
deriving DecidableEq, Repr, Inhabited

instance : Coe Shape Expected := ⟨.shape⟩

/-- The word for what was expected. -/
def Expected.text : Expected → String
  | .shape s => s.text
  | .stated text => text

/-- Everything that can go wrong. -/
inductive Error where
  /-- a loop is incomplete or at odds with the loops around it -/
  | invalidNode (node : LoopId) (defect : NodeDefect)
  /-- a loop names a parent that is not annotated -/
  | missingParent (node parent : LoopId)
  /-- there is no loop with this id -/
  | unknownLoop (id : LoopId)
  /-- no loop holds a computation of this name -/
  | unknownComputation (computation : String)
  /-- the level asked for lies below the loop holding the computation -/
  | levelOutOfRange (computation : String) (requested depth : Nat)
  /-- one of two loops to be interchanged is not there -/
  | disconnected (first second missing : LoopId)
  /-- a transformation got the wrong number of parameters -/
  | parameterCount (action : Subject) (expected found : Nat)
  /-- a parameter has the wrong shape for its position -/
  | parameterShape (action : Subject) (index : Nat) (expected : Expected)
  /-- a transformation has nothing to transform -/
  | noTargets (action : Subject)
  /-- the annotation as a whole is malformed -/
  | invalidTable (defect : TableDefect)
  /-- no factors make skewing these levels legal -/
  | unsolved (outer inner : Nat)
  /-- the oracle gave no answer -/
  | oracleUnavailable (outage : Outage)
  /-- a file could not be read -/
  | io (reason : String)
  /-- a text is not the JSON that was asked for -/
  | malformedJson
deriving DecidableEq, Repr, Inhabited

namespace Error

/-- The wording of an error. -/
def message : Error → String
  | .invalidNode node defect => "Invalid node spec for " ++ node.text ++ ": " ++ defect.message
  | .missingParent node parent =>
    "Iterator " ++ node.text ++ " references missing parent " ++ parent.text
  | .unknownLoop id => "Unknown iterator: " ++ id.text
  | .unknownComputation computation => "Unknown computation: " ++ computation
  | .levelOutOfRange computation requested depth =>
    "Level " ++ requested.repr ++ " out of range for computation " ++ computation ++
      " (owner depth " ++ depth.repr ++ ")"
  | .disconnected first second missing =>
    "Cannot interchange " ++ first.text ++ " and " ++ second.text ++ ": " ++ missing.text ++
      " is not in the tree"
  | .parameterCount action expected found =>
    action.name ++ " takes " ++ expected.repr ++ " parameters, got " ++ found.repr
  | .parameterShape action index expected =>
    action.name ++ " parameter " ++ index.repr ++ " must be a " ++ expected.text
  | .noTargets action => action.name ++ " requires at least one target computation"
  | .invalidTable defect => "Invalid annotation: " ++ defect.message
  | .unsolved outer inner =>
    "Skewing solver returned no factors for levels " ++ outer.repr ++ " and " ++ inner.repr
  | .oracleUnavailable outage => "Oracle unavailable: " ++ outage.message
  | .io reason => "I/O error: " ++ reason
  | .malformedJson => "JSON error"

/-- Whether the oracle, and not the caller, is at fault.  A search rejects
the candidate and goes on. -/
def isOracleFailure : Error → Bool
  | .unsolved _ _ | .oracleUnavailable _ => true
  | _ => false

end Error

/-! ## Operations that can fail -/

@[simp] theorem ok_bind {α β : Type} (a : α) (f : α → Except Error β) :
    (Except.ok a >>= f) = f a := rfl

@[simp] theorem error_bind {α β : Type} (e : Error) (f : α → Except Error β) :
    (Except.error e >>= f) = .error e := rfl

/-- An operation in two steps gives what its second step gives. -/
theorem bind_eq_ok {α β : Type} {x : Except Error α} {f : α → Except Error β} {b : β} :
    (x >>= f) = .ok b ↔ ∃ a, x = .ok a ∧ f a = .ok b := by
  cases x with
  | error e =>
    constructor
    · intro h
      cases h
    · rintro ⟨_, h, _⟩
      cases h
  | ok a => simp

/-- An operation in two steps fails if one of its steps does. -/
theorem bind_eq_error {α β : Type} {x : Except Error α} {f : α → Except Error β} {e : Error} :
    (x >>= f) = .error e ↔ x = .error e ∨ ∃ a, x = .ok a ∧ f a = .error e := by
  cases x <;> simp

/-- What fails does not succeed. -/
theorem exists_error_iff {α : Type} {x : Except Error α} :
    (∃ e, x = .error e) ↔ ¬ ∃ a, x = .ok a := by
  cases x <;> simp

/-- Where every single operation succeeds, so do all of them in turn. -/
theorem mapM_eq_ok {α β : Type} {f : α → Except Error β} {g : α → β} {l : List α}
    (h : ∀ a ∈ l, f a = .ok (g a)) : l.mapM f = .ok (l.map g) := by
  induction l with
  | nil => rfl
  | cons a rest ih =>
    rw [List.mapM_cons, h a (List.mem_cons_self ..), ok_bind,
      ih fun b hb => h b (List.mem_cons_of_mem _ hb)]
    rfl

end LoopNest
