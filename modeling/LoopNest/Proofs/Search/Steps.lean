import LoopNest.Proofs.Search.Trials

/-!
LoopNest.Proofs.Search.Steps — a search as a run of steps.

Whatever its limits, a search does only three things to its progress: it
looks at another root, it skips a candidate, or it tries one and is told the
oracle's answer (`Step`).  It stops after a run of such steps, or with one
more trial if the answer is an error that is not the oracle's own
(`Reaches`).  So a fact that every step keeps holds of every search.

* `Oracle.verdicts` — the record of queries with the answers to them;
* `tryCandidates_reaches`, `tryRoots_reaches`, `run_reaches`;
* `Steps.invariant` — what a step keeps, a run keeps;
* `Steps.extends` — records and schedules only grow;
* `Steps.counted`, `Steps.marked` — the counters count the verdicts, and the
  record is about loops with something to compute inside them.
-/

namespace LoopNest

namespace Oracle

/-- The schedules that some queries are about, each with the answer it gets
after the queries before it. -/
def verdicts (oracle : Oracle) : List Query → List Query → List (List Action × Except Error Bool)
  | _, [] => []
  | earlier, .legality program schedule :: rest =>
    (schedule, oracle.judge earlier program schedule) ::
      oracle.verdicts (earlier ++ [.legality program schedule]) rest
  | earlier, query :: rest => oracle.verdicts (earlier ++ [query]) rest

theorem verdicts_concat (oracle : Oracle) (program : Program) (schedule : List Action) :
    ∀ earlier asked : List Query,
      oracle.verdicts earlier (asked ++ [.legality program schedule]) =
        oracle.verdicts earlier asked ++
          [(schedule, oracle.judge (earlier ++ asked) program schedule)]
  | earlier, [] => by simp [verdicts]
  | earlier, .legality p s :: rest => by
      simp [verdicts, verdicts_concat oracle program schedule (earlier ++ [.legality p s]) rest]
  | earlier, .skewing p s levels computations :: rest => by
      simp [verdicts, verdicts_concat oracle program schedule
        (earlier ++ [.skewing p s levels computations]) rest]

end Oracle

namespace Search

/-- An action that marks one loop parallel and targets what there is to
compute inside it. -/
def Marking (t : Forest) (action : Action) : Prop :=
  ∃ loop computations, action = .parallel loop computations ∧
    t.subtreeComputations loop = .ok computations ∧ computations ≠ []

/-- The steps of a search that goes on. -/
inductive Step (oracle : Oracle) (t : Forest) : Progress → Progress → Prop where
  | visited (p : Progress) : Step oracle t p p.visit
  | skipped (p : Progress) : Step oracle t p p.skip
  | tried (p : Progress) {action : Action} : Marking t action →
    (∀ e, ending? (p.answer oracle action) ≠ some (some (.failed e))) →
    Step oracle t p (p.tried oracle action)

/-- Steps one after the other. -/
inductive Steps (oracle : Oracle) (t : Forest) : Progress → Progress → Prop where
  | refl (p : Progress) : Steps oracle t p p
  | head {p q r : Progress} : Step oracle t p q → Steps oracle t q r → Steps oracle t p r

/-- How a search comes to a stop: after some steps, or when it is told after
them of an error that ends it. -/
inductive Reaches (oracle : Oracle) (t : Forest) (p : Progress) :
    Progress × Option Halt → Prop where
  | done {q : Progress} : Steps oracle t p q → Reaches oracle t p (q, none)
  | spent {q : Progress} : Steps oracle t p q → Reaches oracle t p (q, some .spent)
  | failed {q : Progress} {action : Action} {e : Error} : Steps oracle t p q →
    Marking t action → q.answer oracle action = .error e → e.isOracleFailure = false →
    Reaches oracle t p (q.tried oracle action, some (.failed e))

variable {oracle : Oracle} {t : Forest} {p q : Progress}

theorem Steps.trans {r : Progress} (h : Steps oracle t p q) (h' : Steps oracle t q r) :
    Steps oracle t p r := by
  induction h with
  | refl p => exact h'
  | head hstep _ ih => exact .head hstep (ih h')

theorem Reaches.after {result : Progress × Option Halt} (h : Steps oracle t p q)
    (h' : Reaches oracle t q result) : Reaches oracle t p result := by
  cases h' with
  | done hsteps => exact .done (h.trans hsteps)
  | spent hsteps => exact .spent (h.trans hsteps)
  | failed hsteps hmark hanswer he => exact .failed (h.trans hsteps) hmark hanswer he

/-- A search that does not fail has come as far as its steps. -/
theorem Reaches.steps {result : Progress × Option Halt} (h : Reaches oracle t p result)
    (hne : ∀ e, result.2 ≠ some (.failed e)) : Steps oracle t p result.1 := by
  cases h with
  | done hsteps => exact hsteps
  | spent hsteps => exact hsteps
  | @failed q action e => exact absurd rfl (hne e)

/-- What every step keeps, a run of steps keeps. -/
theorem Steps.invariant {P : Progress → Prop}
    (hstep : ∀ p q, Step oracle t p q → P p → P q) (h : Steps oracle t p q) (hp : P p) : P q := by
  induction h with
  | refl p => exact hp
  | head hs _ ih => exact ih (hstep _ _ hs hp)

/-! ## Searches -/

theorem ending?_eq_failed {answer : Except Error Bool} {e : Error}
    (h : ending? answer = some (some (.failed e))) :
    answer = .error e ∧ e.isOracleFailure = false := by
  match answer with
  | .ok true => cases h
  | .ok false => cases h
  | .error e' =>
    by_cases he : e'.isOracleFailure = true
    · simp [ending?, he] at h
    · simp only [ending?, he] at h
      cases h
      exact ⟨rfl, by simpa using he⟩

theorem ending?_ne_spent (answer : Except Error Bool) :
    ending? answer ≠ some (some .spent) := by
  match answer with
  | .ok true => simp [ending?]
  | .ok false => simp [ending?]
  | .error e => by_cases he : e.isOracleFailure = true <;> simp [ending?, he]

variable {limits : SearchLimits}

theorem tryCandidates_reaches : ∀ (candidates : List Candidate) (p : Progress),
    (∀ c ∈ candidates, Single t c) → Reaches oracle t p (tryCandidates limits oracle t candidates p)
  | [], p, _ => .done (.refl p)
  | candidate :: rest, p, hcandidates => by
      obtain ⟨loop, computations, rfl, hcomputations⟩ :=
        hcandidates candidate (List.mem_cons_self ..)
      have hmore : ∀ q, Step oracle t p q →
          Reaches oracle t p (tryCandidates limits oracle t rest q) := fun q hq =>
        .after (.head hq (.refl q)) (tryCandidates_reaches rest q
          fun c hc => hcandidates c (List.mem_cons_of_mem _ hc))
      rw [tryCandidates_single hcomputations]
      split
      · exact .spent (.refl p)
      · split
        · exact hmore _ (.skipped p)
        · next hne =>
          have hmark : Marking t (.parallel loop computations) :=
            ⟨loop, computations, rfl, hcomputations, hne⟩
          cases hend : ending? (p.answer oracle (.parallel loop computations)) with
          | none => exact hmore _ (.tried p hmark (by simp [hend]))
          | some halt =>
            match halt with
            | none => exact .done (.head (.tried p hmark (by simp [hend])) (.refl _))
            | some .spent => exact absurd hend (ending?_ne_spent _)
            | some (.failed e) =>
              obtain ⟨hanswer, he⟩ := ending?_eq_failed hend
              exact .failed (.refl p) hmark hanswer he

theorem tryRoots_reaches {candidates : OrderedMap LoopId (List Candidate)} :
    ∀ (roots : List LoopId) (p : Progress), Offered t candidates roots →
      Reaches oracle t p (tryRoots limits oracle t candidates roots p)
  | [], p, _ => .done (.refl p)
  | root :: rest, p, hroots => by
      obtain ⟨found, hfound, hsingle⟩ := hroots root (List.mem_cons_self ..)
      have hnow : Reaches oracle t p
          (tryCandidates limits oracle t (limits.cut found) p.visit) :=
        .after (.head (.visited p) (.refl _))
          (tryCandidates_reaches _ p.visit fun c hc => hsingle c (mem_cut hc))
      rw [tryRoots, hfound]
      simp only
      generalize tryCandidates limits oracle t (limits.cut found) p.visit = result at hnow
      cases hnow with
      | done hsteps =>
        exact .after hsteps (tryRoots_reaches rest _
          fun r hr => hroots r (List.mem_cons_of_mem _ hr))
      | spent hsteps => exact .spent hsteps
      | failed hsteps hmark hanswer he => exact .failed hsteps hmark hanswer he

/-- Nothing that was asked or accepted is taken back. -/
structure Extends (p q : Progress) : Prop where
  asked : p.asked <+: q.asked
  actions : p.best.actions <+: q.best.actions

theorem Extends.refl (p : Progress) : Extends p p := ⟨List.prefix_rfl, List.prefix_rfl⟩

theorem Extends.trans {r : Progress} (h : Extends p q) (h' : Extends q r) : Extends p r :=
  ⟨h.asked.trans h'.asked, h.actions.trans h'.actions⟩

theorem extends_tried (oracle : Oracle) (p : Progress) (action : Action) :
    Extends p (p.tried oracle action) := by
  refine ⟨by simp, ?_⟩
  by_cases h : p.answer oracle action = .ok true
  · simp [Progress.best_tried h]
  · simp [Progress.best_tried_of_ne h]

theorem Step.extends (h : Step oracle t p q) : Extends p q := by
  cases h with
  | visited => exact ⟨List.prefix_rfl, List.prefix_rfl⟩
  | skipped => exact ⟨List.prefix_rfl, List.prefix_rfl⟩
  | tried => exact extends_tried oracle p _

theorem Steps.extends (h : Steps oracle t p q) : Extends p q := by
  induction h with
  | refl p => exact .refl p
  | head hstep _ ih => exact hstep.extends.trans ih

theorem Reaches.extends {result : Progress × Option Halt} (h : Reaches oracle t p result) :
    Extends p result.1 := by
  cases h with
  | done hsteps => exact hsteps.extends
  | spent hsteps => exact hsteps.extends
  | failed hsteps => exact hsteps.extends.trans (extends_tried oracle _ _)

/-- Calls are counted as they are recorded, and trials by the answers to
them. -/
structure Counted (oracle : Oracle) (p : Progress) : Prop where
  calls : p.statistics.oracleCalls = p.asked.length
  accepted : p.statistics.accepted
    = (oracle.verdicts [] p.asked).countP fun v => v.2.toOption = some true
  rejected : p.statistics.rejected
    = (oracle.verdicts [] p.asked).countP fun v => v.2.toOption = some false
  failures : p.statistics.oracleFailures
    = (oracle.verdicts [] p.asked).countP fun v => v.2.toOption = none

theorem counted_start (oracle : Oracle) (program : Program) :
    Counted oracle (.start program) :=
  ⟨rfl, rfl, rfl, rfl⟩

/-- A trial is counted, and so is the answer to it if the search goes on. -/
theorem statistics_tried {action : Action}
    (hgoes : ∀ e, ending? (p.answer oracle action) ≠ some (some (.failed e))) :
    (p.tried oracle action).statistics = { p.statistics with
      candidatesTried := p.statistics.candidatesTried + 1
      oracleCalls := p.statistics.oracleCalls + 1
      accepted := p.statistics.accepted +
        if (p.answer oracle action).toOption = some true then 1 else 0
      rejected := p.statistics.rejected +
        if (p.answer oracle action).toOption = some false then 1 else 0
      oracleFailures := p.statistics.oracleFailures +
        if (p.answer oracle action).toOption = none then 1 else 0 } := by
  cases hanswer : p.answer oracle action with
  | ok legal =>
    cases legal with
    | true => simp [Progress.tried, hanswer, Progress.accept, Progress.ask, Except.toOption]
    | false => simp [Progress.tried, hanswer, Progress.reject, Progress.ask, Except.toOption]
  | error e =>
    have he : e.isOracleFailure = true := by
      by_contra hne
      exact hgoes e (by simp [hanswer, ending?, hne])
    simp [Progress.tried, hanswer, he, Progress.drop, Progress.ask, Except.toOption]

theorem verdicts_tried (oracle : Oracle) (p : Progress) (action : Action) :
    oracle.verdicts [] (p.tried oracle action).asked =
      oracle.verdicts [] p.asked ++ [(p.best.actions ++ [action], p.answer oracle action)] := by
  rw [Progress.asked_tried, Oracle.verdicts_concat]
  rfl

theorem Step.counted (h : Step oracle t p q) (hp : Counted oracle p) : Counted oracle q := by
  cases h with
  | visited => exact ⟨hp.calls, hp.accepted, hp.rejected, hp.failures⟩
  | skipped => exact ⟨hp.calls, hp.accepted, hp.rejected, hp.failures⟩
  | @tried action _ hgoes =>
    have hcount : ∀ answer, (oracle.verdicts [] (p.tried oracle action).asked).countP
        (fun v => v.2.toOption = answer) =
          (oracle.verdicts [] p.asked).countP (fun v => v.2.toOption = answer) +
            if (p.answer oracle action).toOption = answer then 1 else 0 := by
      intro answer
      rw [verdicts_tried, List.countP_append, List.countP_singleton]
      simp only [decide_eq_true_eq]
    constructor
    · simp [statistics_tried hgoes, hp.calls]
    · rw [hcount, statistics_tried hgoes, hp.accepted]
    · rw [hcount, statistics_tried hgoes, hp.rejected]
    · rw [hcount, statistics_tried hgoes, hp.failures]

theorem Steps.counted {program : Program} (h : Steps oracle t (.start program) q) :
    Counted oracle q :=
  h.invariant (fun _ _ hs hp => hs.counted hp) (counted_start oracle program)

/-- Only markings are ever put together and asked about. -/
structure Marked (program : Program) (p : Progress) : Prop where
  program_eq : p.best.program = program
  best : ∀ action ∈ p.best.actions, Marking program.forest action
  asked : ∀ query ∈ p.asked, ∃ schedule, query = .legality program schedule ∧
    ∀ action ∈ schedule, Marking program.forest action

theorem Marked.trial {program : Program} (h : Marked program p) {action : Action}
    (hmark : Marking program.forest action) :
    ∀ x ∈ p.best.actions ++ [action], Marking program.forest x := by
  intro x hx
  rcases List.mem_append.1 hx with hx | hx
  · exact h.best x hx
  · rw [List.mem_singleton.1 hx]
    exact hmark

theorem Marked.tried {program : Program} (h : Marked program p) {action : Action}
    (hmark : Marking program.forest action) : Marked program (p.tried oracle action) := by
  refine ⟨Progress.program_tried.trans h.program_eq, ?_, ?_⟩
  · by_cases hlegal : p.answer oracle action = .ok true
    · rw [Progress.best_tried hlegal]
      exact h.trial hmark
    · rw [Progress.best_tried_of_ne hlegal]
      exact h.best
  · intro query hquery
    rw [Progress.asked_tried, h.program_eq] at hquery
    rcases List.mem_append.1 hquery with hquery | hquery
    · exact h.asked query hquery
    · exact ⟨_, List.mem_singleton.1 hquery, h.trial hmark⟩

theorem Step.marked {program : Program} (h : Step oracle program.forest p q)
    (hp : Marked program p) : Marked program q := by
  cases h with
  | visited => exact ⟨hp.program_eq, hp.best, hp.asked⟩
  | skipped => exact ⟨hp.program_eq, hp.best, hp.asked⟩
  | tried hmark _ => exact hp.tried hmark

theorem marked_start (program : Program) : Marked program (.start program) := by
  refine ⟨rfl, ?_, ?_⟩ <;> simp [Progress.start, Schedule.empty]

theorem Steps.marked {program : Program} (h : Steps oracle program.forest (.start program) q) :
    Marked program q :=
  h.invariant (fun _ _ hs hp => hs.marked hp) (marked_start program)

/-- Whatever a search asks, when it stops with an error too, is about
markings. -/
theorem Reaches.marked {program : Program} {result : Progress × Option Halt}
    (h : Reaches oracle program.forest (.start program) result) : Marked program result.1 := by
  cases h with
  | done hsteps => exact hsteps.marked
  | spent hsteps => exact hsteps.marked
  | failed hsteps hmark => exact hsteps.marked.tried hmark

end Search

end LoopNest
