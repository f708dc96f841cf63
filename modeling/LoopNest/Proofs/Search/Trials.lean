import LoopNest.Proofs.Forest.Sections
import LoopNest.Search.Greedy

/-!
LoopNest.Proofs.Search.Trials — what one trial of the search comes to.

On a linked forest nothing but the oracle can fail: every root has its
candidates, the loops inside it one by one, and a candidate gives one action
or, if there is no work inside, none.  A trial is a changed schedule, so it
is put to the oracle whatever the best schedule remembers
(`Schedule.judge_append`).

* `ending?` — the answers that end the trying of a root's candidates;
* `Progress.tried` — what a trial and its answer make of a search's progress;
* `tryCandidates_single` — the search as these two: one equation for a
  candidate, and the ground of every induction over a search;
* `run_eq_returned` — a whole search as what trying its roots comes to.
-/

namespace LoopNest

/-- The action that marks a loop around some computations parallel. -/
def Action.parallel (loop : LoopId) (computations : List String) : Action where
  kind := .parallelization
  params := [.loop loop]
  computations := computations

theorem Action.parallelization_eq {loop : LoopId} {computations : List String}
    (h : computations ≠ []) :
    Action.parallelization loop computations = .ok (.parallel loop computations) := by
  have hempty : computations.isEmpty = false := by simpa using h
  simp [parallelization, make, parallel, checkShapes, Kind.arity, Kind.shape, Param.shape, hempty]

/-- The candidates of a root are the loops inside it, one at a time. -/
theorem Forest.Linked.parallel_candidates {t : Forest} (h : t.Linked) :
    ∃ found, Kind.parallelization.candidates t = .ok found ∧
      ∀ root ∈ t.roots, ∃ loops : List LoopId,
        found.get? root = some (loops.map fun id => [id]) ∧ loops.Perm (t.inside root) := by
  obtain ⟨sections, hsections, -, hroot⟩ := h.sections_eq
  refine ⟨sections.map fun _ sections => sections.flatten.map fun id => [id], ?_, ?_⟩
  · simp only [Kind.candidates, hsections, ok_bind]
    rfl
  · intro root hr
    obtain ⟨found, hfound, hcut⟩ := hroot root hr
    have hperm := hcut.perm h
    rw [List.flatMap_singleton] at hperm
    exact ⟨found.flatten, by rw [OrderedMap.get?_map, hfound]; rfl, hperm⟩

@[simp] theorem Schedule.actions_append (s : Schedule) (actions : List Action) :
    (s.append actions).actions = s.actions ++ actions := rfl

/-- A schedule that has been added to is judged by the oracle, never from
memory. -/
theorem Schedule.judge_append (s : Schedule) (actions : List Action) (oracle : Oracle)
    (asked : List Query) :
    (s.append actions).judge oracle asked =
      match oracle.judge asked s.program (s.actions ++ actions) with
      | .ok legal => (.ok legal, { s.append actions with verdict := some legal },
          asked ++ [.legality s.program (s.actions ++ actions)])
      | .error e => (.error e, s.append actions,
          asked ++ [.legality s.program (s.actions ++ actions)]) := by
  simp only [judge, append, Oracle.askLegality]
  cases oracle.judge asked s.program (s.actions ++ actions) <;> rfl

namespace Search

/-- One loop gives one action, or none if there is no work inside it. -/
theorem actionsOf_single {t : Forest} {loop : LoopId} {computations : List String}
    (h : t.subtreeComputations loop = .ok computations) :
    actionsOf t [loop] =
      .ok (if computations = [] then [] else [.parallel loop computations]) := by
  by_cases hc : computations = []
  · simp [actionsOf, h, hc]
  · have hempty : computations.isEmpty = false := by simpa using hc
    simp only [actionsOf, h, ok_bind, hempty, Action.parallelization_eq hc, if_neg hc]
    rfl

theorem mem_cut {α : Type} {limits : SearchLimits} {candidates : List α} {c : α}
    (h : c ∈ limits.cut candidates) : c ∈ candidates := by
  unfold SearchLimits.cut at h
  split at h
  · exact h
  · exact List.mem_of_mem_take h

/-- What happens to one loop, its candidates tried in turn. -/
theorem tryCandidates_cons {t : Forest} {loop : LoopId} {computations : List String}
    (h : t.subtreeComputations loop = .ok computations) (limits : SearchLimits) (oracle : Oracle)
    (rest : List Candidate) (p : Progress) :
    tryCandidates limits oracle t ([loop] :: rest) p =
      if limits.allowsCall p.statistics.oracleCalls = false then (p, some .spent)
      else if computations = [] then tryCandidates limits oracle t rest p.skip
      else
        let trial := p.best.append [.parallel loop computations]
        let after := p.ask (p.asked ++ [.legality p.best.program trial.actions])
        match oracle.judge p.asked p.best.program trial.actions with
        | .ok true => (after.accept { trial with verdict := some true }, none)
        | .ok false => tryCandidates limits oracle t rest after.reject
        | .error e =>
          if e.isOracleFailure then tryCandidates limits oracle t rest after.drop
          else (after, some (.failed e)) := by
  rw [tryCandidates, actionsOf_single h]
  by_cases hcall : limits.allowsCall p.statistics.oracleCalls = false
  · simp [hcall]
  · by_cases hc : computations = []
    · simp [hcall, hc]
    · simp only [hcall, hc, if_false, Schedule.judge_append,
        Schedule.actions_append]
      cases oracle.judge p.asked p.best.program
          (p.best.actions ++ [.parallel loop computations]) with
      | error e => rfl
      | ok legal => cases legal <;> rfl

/-! ## Answers -/

/-- How an answer ends the trying of a root's candidates, if it does: a legal
trial settles the root, and an error that is not the oracle's own ends the
search. -/
def ending? : Except Error Bool → Option (Option Halt)
  | .ok true => some none
  | .ok false => none
  | .error e => if e.isOracleFailure then none else some (some (.failed e))

/-- What the oracle answers to a trial, the best schedule with one more
action. -/
def Progress.answer (oracle : Oracle) (p : Progress) (action : Action) : Except Error Bool :=
  oracle.judge p.asked p.best.program (p.best.actions ++ [action])

/-- What a trial and the answer to it make of a search's progress. -/
def Progress.tried (oracle : Oracle) (p : Progress) (action : Action) : Progress :=
  let trial := p.best.append [action]
  let after := p.ask (p.asked ++ [.legality p.best.program trial.actions])
  match p.answer oracle action with
  | .ok true => after.accept { trial with verdict := some true }
  | .ok false => after.reject
  | .error e => if e.isOracleFailure then after.drop else after

namespace Progress

variable {oracle : Oracle} {p : Progress} {action : Action}

@[simp] theorem asked_tried : (p.tried oracle action).asked
    = p.asked ++ [.legality p.best.program (p.best.actions ++ [action])] := by
  unfold tried
  split
  · rfl
  · rfl
  · split <;> rfl

theorem best_tried (h : p.answer oracle action = .ok true) : (p.tried oracle action).best
    = { p.best.append [action] with verdict := some true } := by
  simp [tried, h, accept]

theorem best_tried_of_ne (h : p.answer oracle action ≠ .ok true) :
    (p.tried oracle action).best = p.best := by
  unfold tried
  split
  · next hlegal => exact absurd hlegal h
  · rfl
  · split <;> rfl

@[simp] theorem program_tried : (p.tried oracle action).best.program = p.best.program := by
  by_cases h : p.answer oracle action = .ok true
  · rw [best_tried h]
    rfl
  · rw [best_tried_of_ne h]

end Progress

/-- A candidate of one loop whose computations are known. -/
def Single (t : Forest) (c : Candidate) : Prop :=
  ∃ loop computations, c = [loop] ∧ t.subtreeComputations loop = .ok computations

/-- What happens to a candidate of one loop: no call is left for it, or there
is nothing to mark, or it is tried and the answer decides how to go on. -/
theorem tryCandidates_single {t : Forest} {loop : LoopId} {computations : List String}
    (h : t.subtreeComputations loop = .ok computations) (limits : SearchLimits) (oracle : Oracle)
    (rest : List Candidate) (p : Progress) :
    tryCandidates limits oracle t ([loop] :: rest) p =
      if limits.allowsCall p.statistics.oracleCalls = false then (p, some .spent)
      else if computations = [] then tryCandidates limits oracle t rest p.skip
      else
        match ending? (p.answer oracle (.parallel loop computations)) with
        | some halt => (p.tried oracle (.parallel loop computations), halt)
        | none => tryCandidates limits oracle t rest (p.tried oracle (.parallel loop computations)) := by
  rw [tryCandidates_cons h]
  simp only [Schedule.actions_append, Progress.tried, Progress.answer]
  split
  · rfl
  · split
    · rfl
    · cases oracle.judge p.asked p.best.program
          (p.best.actions ++ [.parallel loop computations]) with
      | ok legal => cases legal <;> rfl
      | error e => by_cases he : e.isOracleFailure = true <;> simp [ending?, he]

/-- On a linked forest every root has its loops, which are its candidates one
by one and have their computations known. -/
theorem exists_loops {t : Forest} (h : t.Linked) :
    ∃ (found : OrderedMap LoopId (List Candidate)) (loops : LoopId → List LoopId),
      Kind.parallelization.candidates t = .ok found ∧
      ∀ root ∈ t.roots, found.get? root = some ((loops root).map fun loop => [loop]) ∧
        ∀ loop ∈ loops root, ∃ computations, t.subtreeComputations loop = .ok computations := by
  obtain ⟨found, hfound, hroot⟩ := h.parallel_candidates
  refine ⟨found, fun root => ((found.get? root).getD []).flatten, hfound, fun root hr => ?_⟩
  obtain ⟨loops, hloops, hperm⟩ := hroot root hr
  have hflat : ((found.get? root).getD []).flatten = loops := by
    rw [hloops, Option.getD_some, ← List.flatMap_def, List.flatMap_singleton']
  obtain ⟨r, hr', -⟩ := h.exists_node_of_mem_roots hr
  simp only [hflat]
  refine ⟨hloops, fun loop hloop => ?_⟩
  obtain ⟨n, hn⟩ := h.exists_node_of_mem_inside hr' (hperm.mem_iff.1 hloop)
  exact ⟨_, h.subtreeComputations_eq hn⟩

/-- Some roots have their candidates, of one loop each. -/
def Offered (t : Forest) (candidates : OrderedMap LoopId (List Candidate))
    (roots : List LoopId) : Prop :=
  ∀ root ∈ roots, ∃ found, candidates.get? root = some found ∧ ∀ c ∈ found, Single t c

/-- On a linked forest every root has its candidates. -/
theorem exists_candidates {t : Forest} (h : t.Linked) :
    ∃ candidates, Kind.parallelization.candidates t = .ok candidates ∧
      Offered t candidates t.roots := by
  obtain ⟨found, loops, hfound, hroot⟩ := exists_loops h
  refine ⟨found, hfound, fun root hr => ?_⟩
  obtain ⟨hloops, hcomputations⟩ := hroot root hr
  refine ⟨_, hloops, fun c hc => ?_⟩
  obtain ⟨loop, hloop, rfl⟩ := List.mem_map.1 hc
  obtain ⟨computations, h⟩ := hcomputations loop hloop
  exact ⟨loop, computations, rfl, h⟩

/-! ## Whole searches -/

/-- Where a search stands that has not begun. -/
def Progress.start (program : Program) : Progress := { best := .empty program }

/-- What a search returns when it stops. -/
def returned : Progress × Option Halt → Consulted Outcome
  | (p, some (.failed e)) => (.error e, p.asked)
  | (p, _) => (.ok p.outcome, p.asked)

@[simp] theorem returned_snd (result : Progress × Option Halt) :
    (returned result).2 = result.1.asked := by
  obtain ⟨p, _ | _ | e⟩ := result <;> rfl

theorem returned_eq_error_iff {result : Progress × Option Halt} {e : Error} :
    (returned result).1 = .error e ↔ result.2 = some (.failed e) := by
  obtain ⟨p, _ | _ | e'⟩ := result <;> simp [returned]

theorem returned_eq_ok_iff {result : Progress × Option Halt} {outcome : Outcome} :
    (returned result).1 = .ok outcome ↔
      (∀ e, result.2 ≠ some (.failed e)) ∧ result.1.outcome = outcome := by
  obtain ⟨p, _ | _ | e⟩ := result <;> simp [returned]

/-- A search with its candidates returns what trying its roots comes to. -/
theorem run_eq_returned {program : Program} {candidates : OrderedMap LoopId (List Candidate)}
    (h : Kind.parallelization.candidates program.forest = .ok candidates)
    (limits : SearchLimits) (oracle : Oracle) :
    run limits oracle program = returned (tryRoots limits oracle program.forest candidates
      program.forest.roots (.start program)) := by
  rw [run, h]
  show (match tryRoots limits oracle program.forest candidates program.forest.roots
    (.start program) with
    | (p, some (.failed e)) => (Except.error e, p.asked)
    | (p, _) => (.ok p.outcome, p.asked)) = _
  obtain ⟨p, _ | _ | e⟩ := tryRoots limits oracle program.forest candidates program.forest.roots
    (.start program) <;> rfl

end Search

end LoopNest
