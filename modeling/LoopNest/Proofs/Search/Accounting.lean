import LoopNest.Proofs.Search.Budget
import LoopNest.Proofs.Search.Outages
import LoopNest.Proofs.Search.Turns
import Mathlib.Algebra.Order.BigOperators.Group.List
import Mathlib.Algebra.Order.Ring.Nat

/-!
LoopNest.Proofs.Search.Accounting — the counters account for every candidate.

Each step of a search changes several counters, and keeps them in balance:
trials against calls, and acceptances against the actions of the best
schedule (`Balanced`).  What the counters say of a single root is what they
grow by during its round (`Round.Accounted`): a loop that is looked at is
tried or, if there is nothing to compute inside it, skipped, so at a root
that is left without an acceptance, no limit being set, the two numbers come
to the number of its loops.

* `Step.balanced`, `Steps.totals` — the balance of the whole search;
* `Turn.tried_add_skipped`, `Round.accounted` — one root;
* `Course.sum_growth` — the whole put together from the rounds;
* `run_balanced` — the account of every search that returns.
-/

namespace LoopNest

namespace Search

variable {limits : SearchLimits} {oracle : Oracle} {t : Forest} {p q : Progress}
  {program : Program}

/-! ## The whole search -/

/-- A call is made for each trial, and each acceptance adds an action. -/
structure Balanced (p : Progress) : Prop where
  tried : p.statistics.candidatesTried = p.statistics.oracleCalls
  accepted : p.statistics.accepted = p.best.actions.length

theorem Step.balanced (h : Step oracle t p q) (hp : Balanced p) : Balanced q := by
  cases h with
  | visited => exact ⟨hp.tried, hp.accepted⟩
  | skipped => exact ⟨hp.tried, hp.accepted⟩
  | @tried action _ hgoes =>
    refine ⟨by simp [statistics_tried hgoes, hp.tried], ?_⟩
    rw [Progress.accepted_tried]
    by_cases hlegal : p.answer oracle action = .ok true
    · rw [if_pos hlegal, Progress.best_tried hlegal, hp.accepted]
      simp
    · rw [if_neg hlegal, Progress.best_tried_of_ne hlegal, hp.accepted, Nat.add_zero]

theorem Steps.balanced (h : Steps oracle t (.start program) q) : Balanced q :=
  h.invariant (fun _ _ hs hp => hs.balanced hp) ⟨rfl, rfl⟩

/-- The counters of a search that has not failed, and what it has asked. -/
theorem Steps.totals (h : Steps oracle program.forest (.start program) q) :
    (∀ query ∈ q.asked, ∃ schedule, query = .legality program schedule) ∧
    q.statistics.candidatesTried = q.asked.length ∧ q.statistics.oracleCalls = q.asked.length ∧
    q.statistics.accepted + q.statistics.rejected + q.statistics.oracleFailures
      = q.asked.length ∧
    q.statistics.accepted = q.outcome.actions.length := by
  have hqueries : ∀ query ∈ q.asked, ∃ schedule, query = .legality program schedule := by
    intro query hquery
    obtain ⟨schedule, hq, -⟩ := h.marked.asked query hquery
    exact ⟨schedule, hq⟩
  have hcalls := h.counted.calls
  exact ⟨hqueries, h.balanced.tried.trans hcalls, hcalls, h.counted.sum_eq hqueries,
    h.balanced.accepted.trans (congrArg List.length q.actions_outcome).symm⟩

/-- No more calls are recorded than are allowed. -/
theorem tryRoots_asked_le {candidates : OrderedMap LoopId (List Candidate)}
    (h : Offered t candidates t.roots) (oracle : Oracle) (program : Program) {most : Nat}
    (hmost : limits.oracleCalls = some most) :
    (tryRoots limits oracle t candidates t.roots (.start program)).1.asked.length ≤ most := by
  obtain ⟨perRoot, calls⟩ := limits
  obtain rfl : calls = some most := hmost
  rw [(tryRoots_truncates _ _ h (counted_start oracle program) (Nat.zero_le _)).asked_eq]
  exact List.length_take_le ..

/-! ## One root -/

namespace Round

/-- Trials during a round. -/
def tried (r : Round) : Nat :=
  r.after.statistics.candidatesTried - r.before.statistics.candidatesTried

/-- Skipped candidates during a round. -/
def skipped (r : Round) : Nat :=
  r.after.statistics.candidatesSkipped - r.before.statistics.candidatesSkipped

/-- Acceptances during a round. -/
def accepted (r : Round) : Nat :=
  r.after.statistics.accepted - r.before.statistics.accepted

/-- What is asked during a round. -/
def asked (r : Round) : List Query :=
  r.after.asked.drop r.before.asked.length

/-- What the counters say of a root. -/
structure Accounted (limits : SearchLimits) (t : Forest)
    (candidates : OrderedMap LoopId (List Candidate)) (r : Round) : Prop where
  /-- the first so many loops are looked at; those with something to compute
  inside are tried, in turn, and the others skipped -/
  looked : ∃ loops looked, candidates.get? r.root = some (loops.map fun loop => [loop]) ∧
    looked <+: loops ∧
    r.asked = (looked.filterMap t.marking?).map r.before.trial ∧ r.tried = r.asked.length ∧
    r.skipped = looked.countP fun loop => t.subtreeComputations loop = .ok []
  accepted : r.accepted ≤ 1
  limited : ∀ most, limits.candidatesPerRoot = some most → r.tried ≤ most
  /-- without limits nothing is left out at a root with no acceptance -/
  whole : limits = {} → r.accepted = 0 →
    ∃ order, t.preorder r.root = .ok order ∧ r.tried + r.skipped = order.length

end Round

/-- A loop has something to compute inside or not. -/
theorem length_tried_add_skipped {looked : List LoopId}
    (h : ∀ loop ∈ looked, ∃ computations, t.subtreeComputations loop = .ok computations) :
    (looked.filterMap t.marking?).length +
      (looked.countP fun loop => t.subtreeComputations loop = .ok []) = looked.length := by
  rw [List.length_filterMap_eq_countP,
    List.length_eq_countP_add_countP fun loop => (t.marking? loop).isSome]
  congr 1
  refine List.countP_congr fun loop hloop => ?_
  obtain ⟨computations, hcomputations⟩ := h loop hloop
  by_cases hnone : computations = [] <;>
    simp [Forest.marking?_eq hcomputations, hcomputations, hnone]

/-- A turn takes no counter back. -/
theorem Turn.counters_le {loops looked : List LoopId} {halt : Option Halt}
    (h : Turn limits oracle t loops p.visit looked (q, halt)) :
    p.statistics.candidatesTried ≤ q.statistics.candidatesTried ∧
      p.statistics.candidatesSkipped ≤ q.statistics.candidatesSkipped ∧
      p.statistics.accepted ≤ q.statistics.accepted ∧
      q.statistics.rootsVisited = p.statistics.rootsVisited + 1 := by
  have hlooked := h.looked_eq
  refine ⟨?_, ?_, h.accepted_le.1, hlooked.rootsVisited⟩
  · rw [hlooked.tried]
    exact Nat.le_add_right ..
  · rw [hlooked.skipped]
    exact Nat.le_add_right ..

section Rounds

variable {loops looked : List LoopId} {halt : Option Halt} {r : Round}

theorem Turn.asked_eq
    (h : Turn limits oracle t loops r.before.visit looked (r.after, halt)) :
    r.asked = (looked.filterMap t.marking?).map r.before.trial := by
  rw [Round.asked, h.looked_eq.asked]
  exact List.drop_left ..

theorem Turn.tried_eq (h : Turn limits oracle t loops r.before.visit looked (r.after, halt)) :
    r.tried = (looked.filterMap t.marking?).length := by
  rw [Round.tried, h.looked_eq.tried]
  exact Nat.add_sub_cancel_left ..

theorem Turn.skipped_eq (h : Turn limits oracle t loops r.before.visit looked (r.after, halt)) :
    r.skipped = looked.countP fun loop => t.subtreeComputations loop = .ok [] := by
  rw [Round.skipped, h.looked_eq.skipped]
  exact Nat.add_sub_cancel_left ..

/-- No more is tried than there are loops to look at. -/
theorem Turn.tried_le (h : Turn limits oracle t loops r.before.visit looked (r.after, halt)) :
    r.tried ≤ loops.length := by
  rw [h.tried_eq]
  exact (List.length_filterMap_le ..).trans h.isPrefix.length_le

/-- A root that the search leaves without an acceptance has been looked at as a
whole. -/
theorem Turn.eq_of_accepted_eq_zero
    (h : Turn limits oracle t loops r.before.visit looked (r.after, none))
    (hnone : r.accepted = 0) : looked = loops :=
  h.eq_of_accepted_eq (Nat.le_antisymm (Nat.sub_eq_zero_iff_le.1 hnone) h.accepted_le.1)

/-- All its loops have been tried or skipped then. -/
theorem Turn.tried_add_skipped
    (hloops : ∀ loop ∈ loops, ∃ computations, t.subtreeComputations loop = .ok computations)
    (h : Turn limits oracle t loops r.before.visit looked (r.after, none))
    (hnone : r.accepted = 0) : r.tried + r.skipped = loops.length := by
  obtain rfl := h.eq_of_accepted_eq_zero hnone
  rw [h.tried_eq, h.skipped_eq, length_tried_add_skipped hloops]

end Rounds

theorem Round.accounted {candidates : OrderedMap LoopId (List Candidate)}
    {loops : LoopId → List LoopId} (h : OutsideIn t candidates loops) (hlinked : t.Linked)
    {r : Round} (hr : r.root ∈ t.roots) {looked : List LoopId} {halt : Option Halt}
    (hturn : Turn limits oracle t (limits.cut (loops r.root)) r.before.visit looked (r.after, halt))
    (hhalt : limits = {} → halt = none) : r.Accounted limits t candidates where
  looked := by
    refine ⟨loops r.root, looked, h.get?_eq _ hr, hturn.isPrefix.trans (cut_isPrefix limits _),
      hturn.asked_eq, ?_, hturn.skipped_eq⟩
    rw [hturn.tried_eq, hturn.asked_eq, List.length_map]
  accepted := Nat.sub_le_iff_le_add'.2 hturn.accepted_le.2
  limited := by
    intro most hmost
    refine hturn.tried_le.trans ?_
    rw [SearchLimits.cut, hmost]
    exact List.length_take_le ..
  whole := by
    intro hlimits hnone
    obtain rfl := hhalt hlimits
    subst hlimits
    obtain ⟨n, hn, -⟩ := hlinked.exists_node_of_mem_roots hr
    refine ⟨t.inside r.root, hlinked.preorder_eq hn, ?_⟩
    have hall := hturn.tried_add_skipped (fun _ => h.exists_computations hlinked hr) hnone
    exact hall.trans (h.perm _ hr).length_eq

/-! ## The rounds put together -/

namespace Course

variable {loops : LoopId → List LoopId} {rounds : List Round} {result : Progress × Option Halt}

/-- What a search adds to a counter is what its turns add, put together. -/
theorem sum_growth {f : Progress → Nat}
    (hf : ∀ (loops looked : List LoopId) (p q : Progress) (halt : Option Halt),
      Turn limits oracle t loops p.visit looked (q, halt) → f p ≤ f q)
    (h : Course limits oracle t loops p rounds result) :
    f result.1 = f p + (rounds.map fun r => f r.after - f r.before).sum := by
  induction h with
  | done p => simp
  | next _ hthis _ ih =>
    have hgrows := hf _ _ _ _ _ hthis
    rw [ih, List.map_cons, List.sum_cons]
    simp only
    omega
  | last _ hthis =>
    have hgrows := hf _ _ _ _ _ hthis
    simp only [List.map_cons, List.map_nil, List.sum_cons, List.sum_nil]
    omega

theorem asked_eq (h : Course limits oracle t loops p rounds result) :
    result.1.asked = p.asked ++ rounds.flatMap Round.asked := by
  have hturn : ∀ {ls looked : List LoopId} {root : LoopId} {p q : Progress} {halt : Option Halt},
      Turn limits oracle t ls p.visit looked (q, halt) →
        q.asked = p.asked ++ (Round.mk root p q).asked := by
    intro ls looked root p q halt hturn
    rw [Turn.asked_eq (r := ⟨root, p, q⟩) hturn]
    exact hturn.looked_eq.asked
  induction h with
  | done p => simp
  | next _ hthis _ ih => rw [ih, hturn hthis, List.flatMap_cons, List.append_assoc]
  | last _ hthis => rw [List.flatMap_singleton, hturn hthis]

theorem rootsVisited_eq (h : Course limits oracle t loops (.start program) rounds result) :
    result.1.statistics.rootsVisited = rounds.length := by
  have hgrowth : ∀ r ∈ rounds,
      r.after.statistics.rootsVisited - r.before.statistics.rootsVisited = 1 := by
    intro r hr
    obtain ⟨-, looked, halt, hturn, -⟩ := h.exists_turn hr
    rw [hturn.counters_le.2.2.2]
    exact Nat.add_sub_cancel_left ..
  have hsum := h.sum_growth (f := fun p => p.statistics.rootsVisited)
    fun _ _ _ _ _ hturn => (Nat.le_succ _).trans_eq hturn.counters_le.2.2.2.symm
  rw [hsum, List.map_congr_left hgrowth]
  simp [Progress.start]

theorem candidatesTried_eq (h : Course limits oracle t loops (.start program) rounds result) :
    result.1.statistics.candidatesTried = (rounds.map Round.tried).sum :=
  (h.sum_growth (f := fun p => p.statistics.candidatesTried)
    fun _ _ _ _ _ hturn => hturn.counters_le.1).trans (Nat.zero_add _)

theorem candidatesSkipped_eq (h : Course limits oracle t loops (.start program) rounds result) :
    result.1.statistics.candidatesSkipped = (rounds.map Round.skipped).sum :=
  (h.sum_growth (f := fun p => p.statistics.candidatesSkipped)
    fun _ _ _ _ _ hturn => hturn.counters_le.2.1).trans (Nat.zero_add _)

theorem accepted_eq (h : Course limits oracle t loops (.start program) rounds result) :
    result.1.statistics.accepted = (rounds.map Round.accepted).sum :=
  (h.sum_growth (f := fun p => p.statistics.accepted)
    fun _ _ _ _ _ hturn => hturn.counters_le.2.2.1).trans (Nat.zero_add _)

/-- At most one trial is accepted at each root. -/
theorem accepted_le (h : Course limits oracle t loops (.start program) rounds result) :
    result.1.statistics.accepted ≤ result.1.statistics.rootsVisited := by
  have hmost : ∀ n ∈ rounds.map Round.accepted, n ≤ 1 := by
    intro n hn
    obtain ⟨r, hr, rfl⟩ := List.mem_map.1 hn
    obtain ⟨-, looked, halt, hturn, -⟩ := h.exists_turn hr
    exact Nat.sub_le_iff_le_add'.2 hturn.accepted_le.2
  have hsum := List.sum_le_card_nsmul _ 1 hmost
  rw [h.accepted_eq, h.rootsVisited_eq]
  simpa using hsum

end Course

/-! ## The account -/

/-- The counters of a search that returns, whatever its limits and whatever the
oracle answers.

Trials, calls and the answers to them are as many as the queries that the
oracle received, acceptances as many as the actions found, one at most for
each root, and the calls no more than allowed.  Without a bound on calls all
roots are visited.  The counters are put together from those of the rounds,
and of each round is known which loops were looked at: a candidate is skipped
only if there is nothing to compute inside it, no more are tried than the
limit says, and a root that no limit cuts short and that is left without an
acceptance has all its loops tried or skipped. -/
theorem run_balanced {program : Program} (h : program.forest.Reachable) (limits : SearchLimits)
    (oracle : Oracle) {outcome : Outcome} (hrun : (run limits oracle program).1 = .ok outcome) :
    let t := program.forest
    let asked := (run limits oracle program).2
    let counters := outcome.statistics
    (∀ query ∈ asked, ∃ schedule, query = .legality program schedule) ∧
    counters.candidatesTried = asked.length ∧ counters.oracleCalls = asked.length ∧
    counters.accepted + counters.rejected + counters.oracleFailures = asked.length ∧
    counters.accepted = outcome.actions.length ∧ counters.accepted ≤ counters.rootsVisited ∧
    (∀ most, limits.oracleCalls = some most → counters.oracleCalls ≤ most) ∧
    (limits.oracleCalls = none → counters.rootsVisited = t.roots.length) ∧
    ∃ candidates, Kind.parallelization.candidates t = .ok candidates ∧
      let rounds := rounds limits oracle t candidates t.roots (.start program)
      rounds.map Round.root <+: t.roots ∧ asked = rounds.flatMap Round.asked ∧
      counters.rootsVisited = rounds.length ∧
      counters.candidatesTried = (rounds.map Round.tried).sum ∧
      counters.candidatesSkipped = (rounds.map Round.skipped).sum ∧
      counters.accepted = (rounds.map Round.accepted).sum ∧
      ∀ r ∈ rounds, r.Accounted limits t candidates := by
  intro t asked counters
  have hlinked := h.sound.toLinked
  obtain ⟨candidates, loops, result, hcandidates, hloops, hresult, hreturned, hreaches, hcourse⟩ :=
    run_course hlinked limits oracle
  have hasked : asked = result.1.asked := (congrArg Prod.snd hreturned).trans (returned_snd _)
  rw [hreturned] at hrun
  obtain ⟨hne, rfl⟩ := returned_eq_ok_iff.1 hrun
  obtain ⟨hqueries, htried, hcalls, hanswers, haccepted⟩ := (hreaches.steps hne).totals
  have hmost : ∀ most, limits.oracleCalls = some most → result.1.asked.length ≤ most := by
    intro most hlimit
    rw [hresult]
    exact tryRoots_asked_le (hloops.offered hlinked) oracle program hlimit
  obtain ⟨hfirst, hall⟩ := @rounds_roots limits oracle t candidates t.roots (.start program)
  rw [← hresult] at hall
  have hgoes : limits.oracleCalls = none → result.2 = none := fun hlimit =>
    hcourse.halt_eq_none hlimit hne
  have hvisited : limits.oracleCalls = none →
      result.1.statistics.rootsVisited = t.roots.length := by
    intro hlimit
    rw [hcourse.rootsVisited_eq, ← List.length_map Round.root, hall (hgoes hlimit)]
  rw [hasked]
  refine ⟨hqueries, htried, hcalls, hanswers, haccepted, hcourse.accepted_le,
    fun most hlimit => hcalls.trans_le (hmost most hlimit), hvisited, candidates, hcandidates,
    hfirst, hcourse.asked_eq, hcourse.rootsVisited_eq, hcourse.candidatesTried_eq,
    hcourse.candidatesSkipped_eq, hcourse.accepted_eq, fun r hr => ?_⟩
  obtain ⟨hroot, looked, halt, hturn, hhalt⟩ := hcourse.exists_turn hr
  refine Round.accounted hloops hlinked hroot hturn fun hnone => ?_
  exact hhalt.elim id (·.trans (hgoes (hnone ▸ rfl)))

/-- An oracle that fails on the outermost loop of `branching` and declines the
others is asked about all four. -/
theorem branching_balanced :
    let oracle := Oracle.scripted [.error (.oracleUnavailable .unparsable)] (.ok false) []
      (.ok none)
    ∃ t, Forest.ofTable .branching = .ok t ∧ ∃ outcome,
      (run {} oracle ⟨"branching", .branching, t⟩).1 = .ok outcome ∧
      outcome.statistics.candidatesTried = 4 ∧ outcome.statistics.rootsVisited = 1 ∧
      outcome.statistics.accepted + outcome.statistics.rejected +
        outcome.statistics.oracleFailures = 4 := by
  intro oracle
  refine ⟨_, rfl, _, rfl, ?_⟩
  obtain ⟨-, htried, -, hanswers, -, -, -, hvisited, -⟩ :=
    @run_balanced ⟨"branching", .branching, _⟩ (.built (a := .branching) rfl) {} oracle _ rfl
  exact ⟨htried.trans (by decide +kernel), (hvisited rfl).trans (by decide +kernel),
    hanswers.trans (by decide +kernel)⟩

end Search

end LoopNest
