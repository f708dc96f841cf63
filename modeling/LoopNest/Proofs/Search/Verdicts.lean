import LoopNest.Proofs.Forest.Ancestry
import LoopNest.Proofs.Forest.Reachable
import LoopNest.Proofs.Schedule.Memory
import LoopNest.Proofs.Search.Trials

/-!
LoopNest.Proofs.Search.Verdicts — every action found has its verdict.

An oracle may answer as it likes, so all that can be known of a schedule is
what it was answered when it was asked.  `Progress.Backed` is what the
search keeps true of its best schedule: its verdict is remembered, each of
its beginnings was put to the oracle just so and was judged legal, and its
actions mark loops of different roots.  A refused trial changes nothing of
this (`Backed.refused`), an accepted one adds an action for the present root
(`Backed.accepted`).

* `tryCandidates_ended`, `tryRoots_ended` — a root, and a run of roots;
* `run_accounted` — what a search returns, from what the oracle answered.
-/

namespace LoopNest

variable {oracle : Oracle} {program : Program}

namespace Search

/-- An action marks one loop of a root parallel and targets what there is to
compute inside it. -/
def Marks (t : Forest) (root : LoopId) (action : Action) : Prop :=
  ∃ loop computations, action = .parallel loop computations ∧ t.rootOf loop = .ok root ∧
    t.subtreeComputations loop = .ok computations ∧ computations ≠ []

/-- What the search knows of its best schedule, some roots having been
visited. -/
structure Progress.Backed (oracle : Oracle) (program : Program) (visited : List LoopId)
    (p : Progress) : Prop where
  program_eq : p.best.program = program
  /-- nothing else is ever asked -/
  legality : ∀ query ∈ p.asked, ∃ schedule, query = .legality program schedule
  /-- each beginning was judged legal, as such -/
  answered : ∀ shorter, shorter ≠ [] → shorter <+: p.best.actions →
    oracle.Answered p.asked program shorter (.ok true)
  verdict : p.best.actions ≠ [] → p.best.verdict = some true
  /-- at most one loop of each root, in root order -/
  marks : ∃ roots, roots.Sublist visited ∧
    List.Forall₂ (Marks program.forest) roots p.best.actions
  /-- no legal trial was let go -/
  found : ∀ schedule, oracle.Answered p.asked program schedule (.ok true) → p.best.actions ≠ []

/-- The last query was answered with an error that is not the oracle's own
failure. -/
def Failed (oracle : Oracle) (program : Program) (asked : List Query) (e : Error) : Prop :=
  (∀ query ∈ asked, ∃ schedule, query = .legality program schedule) ∧
    ∃ earlier schedule, asked = earlier ++ [.legality program schedule] ∧
      oracle.judge earlier program schedule = .error e ∧ e.isOracleFailure = false

/-- How a search may come to a stop. -/
def Ended (oracle : Oracle) (program : Program) (visited : List LoopId) :
    Progress × Option Halt → Prop
  | (p, some (.failed e)) => Failed oracle program p.asked e
  | (p, _) => p.Backed oracle program visited

/-! ## Steps -/

namespace Progress.Backed

variable {p q : Progress} {visited : List LoopId}

theorem start (oracle : Oracle) (program : Program) :
    ({ best := .empty program } : Progress).Backed oracle program [] where
  program_eq := rfl
  legality := by simp
  answered := by
    intro shorter hne hshorter
    exact absurd (List.prefix_nil.1 hshorter) hne
  verdict := fun hne => absurd rfl hne
  marks := ⟨[], List.Sublist.refl [], .nil⟩
  found := by
    rintro schedule ⟨earlier, later, hsplit, -⟩
    simp at hsplit

/-- The counters do not matter. -/
theorem of_eq (h : p.Backed oracle program visited) (hbest : q.best = p.best)
    (hasked : q.asked = p.asked) : q.Backed oracle program visited := by
  obtain ⟨best, _, asked⟩ := q
  simp only at hbest hasked
  subst hbest hasked
  exact ⟨h.program_eq, h.legality, h.answered, h.verdict, h.marks, h.found⟩

theorem mono {more : List LoopId} (h : p.Backed oracle program visited)
    (hmore : visited.Sublist more) : p.Backed oracle program more := by
  obtain ⟨roots, hroots, hmarks⟩ := h.marks
  exact { h with marks := ⟨roots, hroots.trans hmore, hmarks⟩ }

theorem legality_concat (h : p.Backed oracle program visited) (schedule : List Action) :
    ∀ query ∈ p.asked ++ [.legality program schedule],
      ∃ schedule, query = Query.legality program schedule := by
  intro query hquery
  rcases List.mem_append.1 hquery with hquery | hquery
  · exact h.legality query hquery
  · exact ⟨schedule, List.mem_singleton.1 hquery⟩

/-- A trial that was not judged legal leaves all as it was. -/
theorem refused (h : p.Backed oracle program visited) {trial : List Action}
    (hjudge : oracle.judge p.asked program trial ≠ .ok true) (hbest : q.best = p.best)
    (hasked : q.asked = p.asked ++ [.legality program trial]) :
    q.Backed oracle program visited where
  program_eq := by rw [hbest, h.program_eq]
  legality := by
    rw [hasked]
    exact h.legality_concat trial
  answered := by
    intro shorter hne hshorter
    rw [hbest] at hshorter
    rw [hasked, Oracle.answered_concat_iff]
    exact Or.inl (h.answered shorter hne hshorter)
  verdict := by
    rw [hbest]
    exact h.verdict
  marks := by
    rw [hbest]
    exact h.marks
  found := by
    intro schedule hanswered
    rw [hasked, Oracle.answered_concat_iff] at hanswered
    rw [hbest]
    rcases hanswered with hanswered | ⟨-, hlegal⟩
    · exact h.found schedule hanswered
    · exact absurd hlegal hjudge

/-- A trial that was judged legal adds an action for one more root. -/
theorem accepted (h : p.Backed oracle program visited) {root : LoopId} {action : Action}
    (hmarks : Marks program.forest root action)
    (hjudge : oracle.judge p.asked program (p.best.actions ++ [action]) = .ok true)
    (hbest : q.best = { p.best.append [action] with verdict := some true })
    (hasked : q.asked = p.asked ++ [.legality program (p.best.actions ++ [action])]) :
    q.Backed oracle program (visited ++ [root]) where
  program_eq := by
    rw [hbest]
    exact h.program_eq
  legality := by
    rw [hasked]
    exact h.legality_concat _
  answered := by
    intro shorter hne hshorter
    rw [hbest] at hshorter
    rw [hasked, Oracle.answered_concat_iff]
    -- a beginning is the whole trial or one of what was best before
    rcases List.prefix_concat_iff.1 hshorter with rfl | hshorter
    · exact Or.inr ⟨rfl, hjudge⟩
    · exact Or.inl (h.answered shorter hne hshorter)
  verdict := fun _ => by rw [hbest]
  marks := by
    obtain ⟨roots, hroots, hall⟩ := h.marks
    rw [hbest]
    exact ⟨roots ++ [root], hroots.append_right [root],
      List.rel_append hall (.cons hmarks .nil)⟩
  found := by
    intro _ _
    rw [hbest]
    simp

end Progress.Backed

/-! ## Runs -/

variable {limits : SearchLimits} {visited : List LoopId}

theorem Ended.mono {more : List LoopId} {result : Progress × Option Halt}
    (h : Ended oracle program visited result) (hmore : visited.Sublist more) :
    Ended oracle program more result := by
  obtain ⟨p, _ | _ | e⟩ := result
  · exact Progress.Backed.mono h hmore
  · exact Progress.Backed.mono h hmore
  · exact h

/-- The candidates of one root add at most one action. -/
theorem tryCandidates_ended (hlinked : program.forest.Linked) {root : LoopId}
    (hroot : root ∈ program.forest.roots) : ∀ (candidates : List Candidate) (p : Progress),
    (∀ c ∈ candidates, ∃ loop ∈ program.forest.inside root, c = [loop]) →
    p.Backed oracle program visited →
    Ended oracle program (visited ++ [root])
      (tryCandidates limits oracle program.forest candidates p)
  | [], p, _, h => h.mono (List.sublist_append_left ..)
  | candidate :: rest, p, hcandidates, h => by
      obtain ⟨loop, hloop, rfl⟩ := hcandidates candidate (List.mem_cons_self ..)
      obtain ⟨r, hr, -⟩ := hlinked.exists_node_of_mem_roots hroot
      obtain ⟨n, hn⟩ := hlinked.exists_node_of_mem_inside hr hloop
      have hcomputations := hlinked.subtreeComputations_eq hn
      have hmore : ∀ q : Progress, q.Backed oracle program visited →
          Ended oracle program (visited ++ [root])
            (tryCandidates limits oracle program.forest rest q) := fun q hq =>
        tryCandidates_ended hlinked hroot rest q
          (fun c hc => hcandidates c (List.mem_cons_of_mem _ hc)) hq
      rw [tryCandidates_cons hcomputations]
      generalize (program.forest.inside loop).flatMap program.forest.computationsOf
        = computations at hcomputations
      by_cases hcall : limits.allowsCall p.statistics.oracleCalls = false
      · rw [if_pos hcall]
        exact h.mono (List.sublist_append_left ..)
      · rw [if_neg hcall]
        by_cases hnone : computations = []
        · rw [if_pos hnone]
          exact hmore p.skip (h.of_eq rfl rfl)
        · rw [if_neg hnone, h.program_eq]
          simp only [Schedule.actions_append]
          have hmarks : Marks program.forest root (.parallel loop computations) :=
            ⟨loop, computations, rfl, hlinked.rootOf_eq hroot hloop, hcomputations, hnone⟩
          cases hjudge : oracle.judge p.asked program
              (p.best.actions ++ [.parallel loop computations]) with
          | ok legal =>
            cases legal with
            | true => exact h.accepted hmarks hjudge rfl rfl
            | false => exact hmore _ (h.refused (by simp [hjudge]) rfl rfl)
          | error e =>
            simp only
            split
            · exact hmore _ (h.refused (by simp [hjudge]) rfl rfl)
            · next hfailure =>
              exact ⟨h.legality_concat _, p.asked, _, rfl, hjudge, by simpa using hfailure⟩

theorem tryRoots_ended (hlinked : program.forest.Linked)
    {candidates : OrderedMap LoopId (List Candidate)}
    (hcandidates : ∀ root ∈ program.forest.roots, ∃ found, candidates.get? root = some found ∧
      ∀ c ∈ found, ∃ loop ∈ program.forest.inside root, c = [loop]) :
    ∀ (roots visited : List LoopId) (p : Progress), roots ⊆ program.forest.roots →
      p.Backed oracle program visited →
      Ended oracle program (visited ++ roots)
        (tryRoots limits oracle program.forest candidates roots p)
  | [], visited, p, _, h => by
      rw [List.append_nil]
      exact h
  | root :: rest, visited, p, hroots, h => by
      obtain ⟨found, hfound, hsingle⟩ := hcandidates root (hroots (List.mem_cons_self ..))
      have hvisit : p.visit.Backed oracle program visited := h.of_eq rfl rfl
      have hnow : Ended oracle program (visited ++ [root])
          (tryCandidates limits oracle program.forest (limits.cut found) p.visit) :=
        tryCandidates_ended hlinked (hroots (List.mem_cons_self ..)) _ _
          (fun c hc => hsingle c (mem_cut hc)) hvisit
      have hsplit : visited ++ root :: rest = (visited ++ [root]) ++ rest := by simp
      rw [tryRoots, hfound, hsplit]
      simp only
      generalize tryCandidates limits oracle program.forest (limits.cut found) p.visit
        = result at hnow
      obtain ⟨q, _ | halt⟩ := result
      · exact tryRoots_ended hlinked hcandidates rest _ q
          (fun r hr => hroots (List.mem_cons_of_mem _ hr)) hnow
      · exact hnow.mono (List.sublist_append_left ..)

theorem Progress.outcome_schedule_eq_none_iff (p : Progress) :
    p.outcome.schedule = none ↔ p.best.actions = [] := by
  cases hbest : p.best.actions <;> simp [outcome, Schedule.isEmpty, hbest]

theorem Progress.outcome_schedule_eq_some_iff (p : Progress) {s : Schedule} :
    p.outcome.schedule = some s ↔ p.best.actions ≠ [] ∧ p.best = s := by
  cases hbest : p.best.actions <;> simp [outcome, Schedule.isEmpty, hbest]

/-- What is known of a schedule that a search returns. -/
theorem Progress.Backed.of_schedule_eq_some {p : Progress} (hlinked : program.forest.Linked)
    (h : p.Backed oracle program program.forest.roots) {s : Schedule}
    (hs : p.outcome.schedule = some s) :
    s.program = program ∧ s.actions ≠ [] ∧
      (∀ shorter, shorter ≠ [] → shorter <+: s.actions →
        oracle.Answered p.asked program shorter (.ok true)) ∧
      s.verdict = some true ∧
      ∃ roots, roots.Nodup ∧ roots.Sublist program.forest.roots ∧
        List.Forall₂ (Marks program.forest) roots s.actions := by
  obtain ⟨hne, rfl⟩ := p.outcome_schedule_eq_some_iff.1 hs
  obtain ⟨roots, hroots, hmarks⟩ := h.marks
  exact ⟨h.program_eq, hne, h.answered, h.verdict hne, roots,
    hlinked.roots_nodup.sublist hroots, hroots, hmarks⟩

theorem Progress.Backed.schedule_eq_none_iff {p : Progress}
    (h : p.Backed oracle program visited) : p.outcome.schedule = none ↔
      ∀ schedule, ¬ oracle.Answered p.asked program schedule (.ok true) := by
  rw [p.outcome_schedule_eq_none_iff]
  constructor
  · intro hnone schedule hanswered
    exact h.found schedule hanswered hnone
  · intro hnever
    by_contra hne
    exact hnever p.best.actions (h.answered _ hne List.prefix_rfl)

/-- A search of a linked forest either comes to an end with all it has found
backed, or fails as the oracle did. -/
theorem run_ended (hlinked : program.forest.Linked) (limits : SearchLimits) (oracle : Oracle) :
    (∃ p : Progress, run limits oracle program = (.ok p.outcome, p.asked) ∧
        p.Backed oracle program program.forest.roots) ∨
      ∃ e asked, run limits oracle program = (.error e, asked) ∧
        Failed oracle program asked e := by
  obtain ⟨candidates, hcandidates, hroot⟩ := hlinked.parallel_candidates
  have hsingle : ∀ root ∈ program.forest.roots, ∃ found, candidates.get? root = some found ∧
      ∀ c ∈ found, ∃ loop ∈ program.forest.inside root, c = [loop] := by
    intro root hr
    obtain ⟨loops, hfound, hperm⟩ := hroot root hr
    refine ⟨_, hfound, fun c hc => ?_⟩
    obtain ⟨loop, hloop, rfl⟩ := List.mem_map.1 hc
    exact ⟨loop, hperm.mem_iff.1 hloop, rfl⟩
  have hended : Ended oracle program program.forest.roots
      (tryRoots limits oracle program.forest candidates program.forest.roots
        { best := .empty program }) :=
    tryRoots_ended hlinked hsingle program.forest.roots [] _ (List.Subset.refl _)
      (Progress.Backed.start oracle program)
  rw [run, hcandidates]
  simp only
  generalize tryRoots limits oracle program.forest candidates program.forest.roots
    { best := .empty program } = result at hended
  obtain ⟨p, _ | _ | e⟩ := result
  · exact Or.inl ⟨p, rfl, hended⟩
  · exact Or.inl ⟨p, rfl, hended⟩
  · exact Or.inr ⟨e, p.asked, rfl, hended⟩

/-- What a search returns on a program with a forest that can occur, whatever
its limits and whatever the oracle answers.

A schedule it returns is not empty, every beginning of it was asked for just
so and judged legal, its verdict is remembered, and its actions mark one
loop each of different roots, in root order, and target the computations
inside.  It ends without a schedule exactly if nothing it asked was judged
legal.  An error it returns is the answer to the last query, and not a
failure of the oracle's own. -/
theorem run_accounted (limits : SearchLimits) (oracle : Oracle) (program : Program)
    (h : program.forest.Reachable) :
    let result := (run limits oracle program).1
    let asked := (run limits oracle program).2
    (∀ query ∈ asked, ∃ schedule, query = .legality program schedule) ∧
    (∀ outcome s, result = .ok outcome → outcome.schedule = some s →
      s.program = program ∧ s.actions ≠ [] ∧
      (∀ shorter, shorter ≠ [] → shorter <+: s.actions →
        oracle.Answered asked program shorter (.ok true)) ∧
      s.verdict = some true ∧
      ∃ roots, roots.Nodup ∧ roots.Sublist program.forest.roots ∧
        List.Forall₂ (Marks program.forest) roots s.actions) ∧
    ((∃ outcome, result = .ok outcome ∧ outcome.schedule = none) ↔
      (∃ outcome, result = .ok outcome) ∧
        ∀ schedule, ¬ oracle.Answered asked program schedule (.ok true)) ∧
    ∀ e, result = .error e → ∃ earlier schedule,
      asked = earlier ++ [.legality program schedule] ∧
        oracle.judge earlier program schedule = .error e ∧ e.isOracleFailure = false := by
  intro result asked
  have hlinked := h.sound.toLinked
  rcases run_ended hlinked limits oracle with ⟨p, hrun, hbacked⟩ | ⟨e, put, hrun, hfailed⟩
  · have hresult : result = .ok p.outcome := congrArg Prod.fst hrun
    have hasked : asked = p.asked := congrArg Prod.snd hrun
    rw [hresult, hasked]
    refine ⟨hbacked.legality, ?_, ?_, ?_⟩
    · intro outcome s houtcome hs
      cases houtcome
      exact hbacked.of_schedule_eq_some hlinked hs
    · rw [← hbacked.schedule_eq_none_iff]
      constructor
      · rintro ⟨outcome, houtcome, hnone⟩
        cases houtcome
        exact ⟨⟨_, rfl⟩, hnone⟩
      · rintro ⟨-, hnone⟩
        exact ⟨_, rfl, hnone⟩
    · intro e he
      cases he
  · have hresult : result = .error e := congrArg Prod.fst hrun
    have hasked : asked = put := congrArg Prod.snd hrun
    rw [hresult, hasked]
    refine ⟨hfailed.1, ?_, ?_, ?_⟩
    · intro outcome s houtcome
      cases houtcome
    · constructor
      · rintro ⟨outcome, houtcome, -⟩
        cases houtcome
      · rintro ⟨⟨outcome, houtcome⟩, -⟩
        cases houtcome
    · intro e' he
      cases he
      exact hfailed.2

/-- One loop of `twoDeep` is found by an oracle that declines the outer loop
and accepts whatever comes then. -/
theorem twoDeep_accounted :
    ∃ t, Forest.ofTable .twoDeep = .ok t ∧ ∃ outcome s,
      (run {} (.scripted [.ok false] (.ok true) [] (.ok none)) ⟨"twoDeep", .twoDeep, t⟩).1
        = .ok outcome ∧ outcome.schedule = some s ∧
      s.actions = [.parallel ⟨"j"⟩ ["S"]] ∧ s.verdict = some true := by
  refine ⟨_, rfl, _, _, rfl, rfl, rfl, ?_⟩
  have haccounted := run_accounted {} (.scripted [.ok false] (.ok true) [] (.ok none))
    ⟨"twoDeep", .twoDeep, _⟩ (.built (a := .twoDeep) rfl)
  exact (haccounted.2.1 _ _ rfl rfl).2.2.2.1

end Search

end LoopNest
