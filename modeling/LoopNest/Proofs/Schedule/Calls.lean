import LoopNest.Proofs.Forest.Lookup
import LoopNest.Schedule.Text

/-!
LoopNest.Proofs.Schedule.Calls — the compiler calls of a schedule, line by
line.

The calls are written computation by computation.  Once the parameters of
all actions can be written, so can all calls, and their text is a plain
list of lines (`linesFor`), one for each computation and each action that
targets it.

* `callsFor_eq`, `callsForAll_eq` — the text is its lines;
* `callOrder_eq` — without foreign targets, the order is the forest's.
-/

namespace LoopNest

namespace Schedule

variable {t : Forest} {actions : List Action} {texts : Action → List String}

/-- The calls of some actions for one computation, the parameters of each
action being written as `texts` says. -/
def linesFor (texts : Action → List String) (actions : List Action) (computation : String) :
    List String :=
  (actions.filter fun action => computation ∈ action.computations).map fun action =>
    Action.callLine action.kind (texts action) computation

theorem linesFor_cons (action : Action) (rest : List Action) (computation : String) :
    linesFor texts (action :: rest) computation =
      if computation ∈ action.computations then
        Action.callLine action.kind (texts action) computation :: linesFor texts rest computation
      else linesFor texts rest computation := by
  simp only [linesFor, List.filter_cons, decide_eq_true_eq]
  split <;> rfl

theorem callsFor_eq (computation : String) : ∀ {actions : List Action},
    (∀ action ∈ actions, Action.paramTexts t action.params = .ok (texts action)) →
    callsFor t computation actions = .ok (String.join (linesFor texts actions computation))
  | [], _ => rfl
  | action :: rest, h => by
      rw [callsFor, linesFor_cons,
        callsFor_eq computation fun a ha => h a (List.mem_cons_of_mem _ ha)]
      split
      · rw [Action.call, h action (List.mem_cons_self ..), String.join_cons]
        rfl
      · rfl

theorem callsForAll_eq
    (h : ∀ action ∈ actions, Action.paramTexts t action.params = .ok (texts action)) :
    ∀ order : List String, callsForAll t actions order
      = .ok (String.join (order.flatMap (linesFor texts actions)))
  | [] => rfl
  | computation :: rest => by
      rw [callsForAll, callsFor_eq computation h, callsForAll_eq h rest, List.flatMap_cons,
        String.join_append]
      rfl

theorem addForeign_eq_self : ∀ {names : List String} (order : List String),
    (∀ name ∈ names, (t.rank? name).isSome) → addForeign t order names = order
  | [], _, _ => rfl
  | name :: rest, order, h => by
      have hname := h name (List.mem_cons_self ..)
      rw [addForeign, if_neg (by simp [Option.isSome_iff_ne_none.1 hname]),
        addForeign_eq_self order fun c hc => h c (List.mem_cons_of_mem _ hc)]

/-- Calls for the forest's own computations come in the forest's order. -/
theorem callOrder_eq {s : Schedule}
    (h : ∀ action ∈ s.actions, ∀ c ∈ action.computations, (s.program.forest.rank? c).isSome) :
    s.callOrder = s.program.forest.computations := by
  refine addForeign_eq_self _ fun c hc => ?_
  obtain ⟨action, haction, hc⟩ := List.mem_flatMap.1 hc
  exact h action haction c hc

end Schedule

end LoopNest
