import LoopNest.Proofs.Forest.Reachable
import LoopNest.Proofs.Search.Trials

/-!
LoopNest.Proofs.Search.Fold — a search without limits is a greedy fold.

Where the oracle's answer is a function `f` of the actions alone, nothing of
a search is left but this: for each root in turn, a list of actions is
extended by the first of the root's markings that `f` lets through.

* `greedyRoot`, `greedy` — the fold, over lists of actions and with no
  progress, no counters and no oracle;
* `greedyRoot_cons` — its recursion, one marking at a time;
* `Agrees` — a search stands where the fold does;
* `run_greedy` — the search and the fold return the same and ask the same.
-/

namespace LoopNest

/-- The action that marks a loop parallel, if there is anything to compute
inside it. -/
def Forest.marking? (t : Forest) (loop : LoopId) : Option Action :=
  match t.subtreeComputations loop with
  | .ok [] | .error _ => none
  | .ok computations => some (.parallel loop computations)

theorem Forest.marking?_eq {t : Forest} {loop : LoopId} {computations : List String}
    (h : t.subtreeComputations loop = .ok computations) :
    t.marking? loop = if computations = [] then none else some (.parallel loop computations) := by
  cases computations <;> simp [marking?, h]

/-- A schedule that was accepted action by action.  Before the first action
there was nothing to ask. -/
def Schedule.accepted (program : Program) (actions : List Action) : Schedule where
  program := program
  actions := actions
  verdict := if actions.isEmpty then none else some true

/-- An oracle whose verdict depends on the actions alone, and that finds no
factors. -/
def Oracle.ofVerdict (f : List Action → Except Error Bool) : Oracle where
  judge := fun _ _ actions => f actions
  solve := fun _ _ _ _ _ => .ok none

namespace Search

/-- Whether an answer to a trial ends the trying: the trial is legal, or the
error is not the oracle's own failure. -/
def settles : Except Error Bool → Bool
  | .ok legal => legal
  | .error e => !e.isOracleFailure

variable {f : List Action → Except Error Bool}

/-- Trials judged in turn, up to the first that settles. -/
def evaluated (f : List Action → Except Error Bool) (trials : List (List Action)) :
    List (List Action) :=
  trials.takeWhile (fun trial => !settles (f trial)) ++
    (trials.find? fun trial => settles (f trial)).toList

/-- The first trial that settles, or its error; if there is none, all stays
as it was. -/
def settled (f : List Action → Except Error Bool) (best : List Action)
    (trials : List (List Action)) : Except Error (List Action) :=
  match trials.find? fun trial => settles (f trial) with
  | none => .ok best
  | some trial => (f trial).map fun _ => trial

/-- What a fold has come to: the best list of actions, or the error that
ended it, and what was judged on the way. -/
abbrev Fold := Except Error (List Action) × List (List Action)

/-- One root of the fold, whose loops have these markings. -/
def greedyRoot (f : List Action → Except Error Bool) : Fold → List Action → Fold
  | (.error e, judged), _ => (.error e, judged)
  | (.ok best, judged), markings =>
    let trials := markings.map fun marking => best ++ [marking]
    (settled f best trials, judged ++ evaluated f trials)

/-- The fold over the markings of every root. -/
def greedy (f : List Action → Except Error Bool) (roots : List (List Action)) : Fold :=
  roots.foldl (greedyRoot f) (.ok [], [])

/-- An error is what the fold ends with. -/
theorem foldl_greedyRoot_error {e : Error} {judged : List (List Action)} :
    ∀ roots : List (List Action),
      roots.foldl (greedyRoot f) (.error e, judged) = (.error e, judged)
  | [] => rfl
  | _ :: rest => foldl_greedyRoot_error rest

theorem greedyRoot_nil {best : List Action} {judged : List (List Action)} :
    greedyRoot f (.ok best, judged) [] = (.ok best, judged) := by
  simp [greedyRoot, settled, evaluated]

/-- The first marking of a root settles it, or the root goes on as if it
began with the second. -/
theorem greedyRoot_cons {best rest : List Action} {judged : List (List Action)}
    {marking : Action} :
    greedyRoot f (.ok best, judged) (marking :: rest) =
      if settles (f (best ++ [marking])) then
        ((f (best ++ [marking])).map fun _ => best ++ [marking], judged ++ [best ++ [marking]])
      else greedyRoot f (.ok best, judged ++ [best ++ [marking]]) rest := by
  by_cases h : settles (f (best ++ [marking])) = true
  · simp [greedyRoot, settled, evaluated, h]
  · simp [greedyRoot, settled, evaluated, h]

/-! ## The search beside the fold -/

variable {oracle : Oracle} {program : Program}

/-- A search that goes on, or has failed, stands where the fold does. -/
inductive Agrees (program : Program) : Progress × Option Halt → Fold → Prop where
  | goesOn {p : Progress} {best : List Action} {judged : List (List Action)} :
    p.best = .accepted program best → p.asked = judged.map (.legality program) →
    Agrees program (p, none) (.ok best, judged)
  | failed {p : Progress} {e : Error} {judged : List (List Action)} :
    p.asked = judged.map (.legality program) →
    Agrees program (p, some (.failed e)) (.error e, judged)

/-- The loops of one root. -/
theorem tryCandidates_agrees
    (hf : ∀ asked actions, oracle.judge asked program actions = f actions)
    {best : List Action} : ∀ (loops : List LoopId) (p : Progress) (judged : List (List Action)),
    (∀ loop ∈ loops, ∃ computations,
      program.forest.subtreeComputations loop = .ok computations) →
    p.best = .accepted program best → p.asked = judged.map (.legality program) →
    Agrees program
      (tryCandidates {} oracle program.forest (loops.map fun loop => [loop]) p)
      (greedyRoot f (.ok best, judged) (loops.filterMap program.forest.marking?))
  | [], p, judged, _, hbest, hasked => by
      rw [List.filterMap_nil, greedyRoot_nil]
      exact .goesOn hbest hasked
  | loop :: rest, p, judged, hloops, hbest, hasked => by
      obtain ⟨computations, hcomputations⟩ := hloops loop (List.mem_cons_self ..)
      have hrest := fun r hr => hloops r (List.mem_cons_of_mem _ hr)
      have hcall : ({} : SearchLimits).allowsCall p.statistics.oracleCalls = true := rfl
      rw [List.map_cons, tryCandidates_single hcomputations, hcall, List.filterMap_cons,
        Forest.marking?_eq hcomputations]
      by_cases hnone : computations = []
      · simp only [hnone, if_true]
        exact tryCandidates_agrees hf rest p.skip judged hrest hbest hasked
      · simp only [hnone, if_false]
        generalize Action.parallel loop computations = marking
        have hanswer : p.answer oracle marking = f (best ++ [marking]) := by
          rw [Progress.answer, hbest]
          exact hf _ _
        have hasked' : (p.tried oracle marking).asked
            = (judged ++ [best ++ [marking]]).map (.legality program) := by
          simp [hbest, hasked, Schedule.accepted]
        -- a trial that is not accepted leaves the best schedule to the next one
        have hmore : p.answer oracle marking ≠ .ok true → Agrees program
            (tryCandidates {} oracle program.forest (rest.map fun loop => [loop])
              (p.tried oracle marking))
            (greedyRoot f (.ok best, judged ++ [best ++ [marking]])
              (rest.filterMap program.forest.marking?)) := fun hne =>
          tryCandidates_agrees hf rest _ _ hrest ((Progress.best_tried_of_ne hne).trans hbest)
            hasked'
        rw [greedyRoot_cons, hanswer]
        rw [hanswer] at hmore
        cases hjudge : f (best ++ [marking]) with
        | ok legal =>
          cases legal with
          | true =>
            refine .goesOn ?_ hasked'
            rw [Progress.best_tried (hanswer.trans hjudge), hbest]
            simp [Schedule.append, Schedule.accepted]
          | false => exact hmore (by simp [hjudge])
        | error e =>
          by_cases he : e.isOracleFailure = true
          · simpa [ending?, settles, he] using hmore (by simp [hjudge])
          · simp only [ending?, settles, he, Except.map]
            exact .failed hasked'

/-- The roots one after the other. -/
theorem tryRoots_agrees
    (hf : ∀ asked actions, oracle.judge asked program actions = f actions)
    {candidates : OrderedMap LoopId (List Candidate)} {loops : LoopId → List LoopId} :
    ∀ (roots : List LoopId) (p : Progress) (best : List Action) (judged : List (List Action)),
    (∀ root ∈ roots, candidates.get? root = some ((loops root).map fun loop => [loop]) ∧
      ∀ loop ∈ loops root, ∃ computations,
        program.forest.subtreeComputations loop = .ok computations) →
    p.best = .accepted program best → p.asked = judged.map (.legality program) →
    Agrees program (tryRoots {} oracle program.forest candidates roots p)
      ((roots.map fun root => (loops root).filterMap program.forest.marking?).foldl
        (greedyRoot f) (.ok best, judged))
  | [], p, best, judged, _, hbest, hasked => .goesOn hbest hasked
  | root :: rest, p, best, judged, hroots, hbest, hasked => by
      obtain ⟨hfound, hloops⟩ := hroots root (List.mem_cons_self ..)
      have hnow := tryCandidates_agrees hf (loops root) p.visit judged hloops hbest hasked
      rw [tryRoots, hfound, List.map_cons, List.foldl_cons]
      simp only [SearchLimits.cut]
      generalize tryCandidates {} oracle program.forest ((loops root).map fun loop => [loop])
        p.visit = result at hnow
      generalize greedyRoot f (.ok best, judged) ((loops root).filterMap program.forest.marking?)
        = fold at hnow
      cases hnow with
      | goesOn hbest' hasked' =>
        exact tryRoots_agrees hf rest _ _ _ (fun r hr => hroots r (List.mem_cons_of_mem _ hr))
          hbest' hasked'
      | failed hasked' =>
        rw [foldl_greedyRoot_error]
        exact .failed hasked'

/-- A search without limits is the greedy fold of the oracle's answers, if
these depend on the actions alone.  Both go through the roots in root order
and through the markings of a root in the order of its candidates, and end
with the same error or with the same actions, a search with no actions being
one that found nothing.  What is asked is what the fold judges, in its
order. -/
theorem run_greedy {program : Program} (h : program.forest.Reachable) (oracle : Oracle)
    (f : List Action → Except Error Bool)
    (hf : ∀ asked actions, oracle.judge asked program actions = f actions) :
    ∃ (found : OrderedMap LoopId (List Candidate)) (loops : LoopId → List LoopId),
      Kind.parallelization.candidates program.forest = .ok found ∧
      (∀ root ∈ program.forest.roots,
        found.get? root = some ((loops root).map fun loop => [loop]) ∧
        ∀ loop ∈ loops root, ∃ computations,
          program.forest.subtreeComputations loop = .ok computations) ∧
      let fold := greedy f
        (program.forest.roots.map fun root => (loops root).filterMap program.forest.marking?)
      (run {} oracle program).1.map Outcome.schedule =
        fold.1.map (fun best =>
          if best = [] then none
          else some { program, actions := best, verdict := some true }) ∧
      (run {} oracle program).2 = fold.2.map (.legality program) := by
  have hlinked := h.sound.toLinked
  obtain ⟨found, loops, hfound, hroots⟩ := exists_loops hlinked
  refine ⟨found, loops, hfound, hroots, ?_⟩
  intro fold
  have hagrees : Agrees program (tryRoots {} oracle program.forest found program.forest.roots
      (.start program)) fold := tryRoots_agrees hf _ _ [] [] hroots rfl rfl
  rw [run_eq_returned hfound]
  generalize tryRoots {} oracle program.forest found program.forest.roots (.start program)
    = result at hagrees
  generalize fold = reference at hagrees
  cases hagrees with
  | failed hasked => exact ⟨rfl, hasked⟩
  | @goesOn p best judged hbest hasked =>
    refine ⟨?_, hasked⟩
    cases best <;> simp [returned, Except.map, Progress.outcome, hbest, Schedule.accepted,
      Schedule.isEmpty]

/-- In `branching` the oracle fails on the outermost loop and accepts what
comes then, so the fold judges two trials. -/
theorem branching_greedy :
    let f := fun actions : List Action =>
      if actions = [.parallel ⟨"i"⟩ ["S", "T"]] then Except.error (.oracleUnavailable .unparsable)
      else .ok true
    ∃ t, Forest.ofTable .branching = .ok t ∧ ∃ loops : LoopId → List LoopId,
      (greedy f (t.roots.map fun root => (loops root).filterMap t.marking?)).2 =
        [[.parallel ⟨"i"⟩ ["S", "T"]], [.parallel ⟨"j"⟩ ["S"]]] := by
  intro f
  refine ⟨_, rfl, ?_⟩
  obtain ⟨found, loops, -, -, -, hasked⟩ := @run_greedy ⟨"branching", .branching, _⟩
    (.built (a := .branching) rfl) (.ofVerdict f) f (fun _ _ => rfl)
  refine ⟨loops, (List.map_injective_iff.2 fun x y h => ?_) (hasked.symm.trans rfl)⟩
  exact (Query.legality.inj h).2

end Search

end LoopNest
