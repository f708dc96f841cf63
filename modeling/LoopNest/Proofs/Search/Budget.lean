import LoopNest.Proofs.Forest.Reachable
import LoopNest.Proofs.Search.Steps
import Mathlib.Data.List.Infix

/-!
LoopNest.Proofs.Search.Budget — a bound on calls only cuts a search short.

A search that may make so many calls is run beside the same search without
that bound.  Both see the same answers, an answer depending on the queries
before it, so they do the same until the calls are used up; and when they
are, the bounded search stops where the other one passes (`Truncates`).

* `tryCandidates_truncates`, `tryRoots_truncates` — the two runs in lockstep,
  through a root and through all of them;
* `Oracle.approved`, `Step.faithful` — a best schedule is made of the trials
  that were judged legal, and of nothing else;
* `run_budgeted` — what a bound leaves of a search.
-/

namespace LoopNest

/-! ## The trials judged legal -/

/-- The schedules among some queries that are judged legal, in the order of
the queries. -/
def Oracle.approved (oracle : Oracle) (asked : List Query) : List (List Action) :=
  ((oracle.verdicts [] asked).filter fun v => v.2.toOption = some true).map Prod.fst

theorem toOption_eq_some_iff {ε α : Type} {x : Except ε α} {a : α} :
    x.toOption = some a ↔ x = .ok a := by
  cases x <;> simp [Except.toOption]

/-- A list that grows by one element has one beginning more. -/
theorem tail_inits_concat {α : Type} (l : List α) (a : α) :
    (l ++ [a]).inits.tail = l.inits.tail ++ [l ++ [a]] := by
  cases l <;> simp [List.inits_append]

namespace Search

variable {oracle : Oracle} {t : Forest} {p q : Progress}

theorem approved_tried (oracle : Oracle) (p : Progress) (action : Action) :
    oracle.approved (p.tried oracle action).asked = oracle.approved p.asked ++
      if (p.answer oracle action).toOption = some true then [p.best.actions ++ [action]]
      else [] := by
  rw [Oracle.approved, verdicts_tried, List.filter_append, List.map_append, ← Oracle.approved]
  by_cases h : (p.answer oracle action).toOption = some true <;> simp [h]

/-- The trials judged legal are the beginnings of the best schedule. -/
def Faithful (oracle : Oracle) (p : Progress) : Prop :=
  oracle.approved p.asked = p.best.actions.inits.tail

theorem Step.faithful (h : Step oracle t p q) (hp : Faithful oracle p) : Faithful oracle q := by
  cases h with
  | visited => exact hp
  | skipped => exact hp
  | @tried action _ _ =>
    rw [Faithful, approved_tried, hp]
    by_cases hlegal : (p.answer oracle action).toOption = some true
    · rw [if_pos hlegal, Progress.best_tried (toOption_eq_some_iff.1 hlegal), Schedule.append,
        tail_inits_concat]
    · rw [if_neg hlegal, Progress.best_tried_of_ne (hlegal ∘ toOption_eq_some_iff.2),
        List.append_nil]

theorem Steps.faithful {program : Program} (h : Steps oracle t (.start program) q) :
    Faithful oracle q :=
  h.invariant (fun _ _ hs hp => hs.faithful hp) rfl

/-! ## Lockstep -/

/-- An error takes a query that was not asked before. -/
theorem Reaches.asked_lt {result : Progress × Option Halt} {e : Error}
    (h : Reaches oracle t p result) (he : result.2 = some (.failed e)) :
    p.asked.length < result.1.asked.length := by
  cases h with
  | done => cases he
  | spent => cases he
  | @failed q action _ hsteps =>
    have := hsteps.extends.asked.length_le
    simp only [Progress.asked_tried, List.length_append, List.length_singleton]
    omega

/-- How a search with so many calls ends beside the one without a bound:
just so, if that makes no more calls, or else where these are used up. -/
inductive Truncates (most : Nat) (free : Progress × Option Halt) :
    Progress × Option Halt → Prop where
  | whole : free.1.asked.length ≤ most → Truncates most free free
  | cut {q : Progress} : q.asked.length = most → Extends q free.1 →
    (∀ e, free.2 = some (.failed e) → most < free.1.asked.length) →
    Truncates most free (q, some .spent)

/-- A search that goes on after a point where the calls are used up. -/
theorem Truncates.cut_of_reaches {most : Nat} {r : Progress} {free : Progress × Option Halt}
    (hq : q.asked.length = most) (hr : Extends q r) (h : Reaches oracle t r free) :
    Truncates most free (q, some .spent) :=
  .cut hq (hr.trans h.extends) fun _ he =>
    Nat.lt_of_le_of_lt (hq ▸ hr.asked.length_le) (h.asked_lt he)

namespace Truncates

variable {most : Nat} {free bound : Progress × Option Halt}

theorem extended (h : Truncates most free bound) : Extends bound.1 free.1 := by
  cases h with
  | whole => exact .refl _
  | cut _ hextends => exact hextends

theorem asked_eq (h : Truncates most free bound) :
    bound.1.asked = free.1.asked.take most := by
  cases h with
  | whole hlength => exact (List.take_of_length_le hlength).symm
  | cut hq hextends => exact hq ▸ List.prefix_iff_eq_take.1 hextends.asked

theorem failed_iff (h : Truncates most free bound) (e : Error) :
    bound.2 = some (.failed e) ↔ free.2 = some (.failed e) ∧ free.1.asked.length ≤ most := by
  cases h with
  | whole hlength => simp [hlength]
  | cut _ _ hfailed =>
    constructor
    · intro he
      cases he
    · rintro ⟨he, hlength⟩
      have := hfailed e he
      omega

end Truncates

theorem tryCandidates_truncates {perRoot : Option Nat} {most : Nat} :
    ∀ (candidates : List Candidate) (p : Progress),
      (∀ c ∈ candidates, Single t c) → Counted oracle p → p.asked.length ≤ most →
      Truncates most (tryCandidates ⟨perRoot, none⟩ oracle t candidates p)
        (tryCandidates ⟨perRoot, some most⟩ oracle t candidates p)
  | [], p, _, _, hmost => .whole hmost
  | candidate :: rest, p, hcandidates, hcounted, hmost => by
      have hfree : Reaches oracle t p
          (tryCandidates ⟨perRoot, none⟩ oracle t (candidate :: rest) p) :=
        tryCandidates_reaches _ p hcandidates
      obtain ⟨loop, computations, rfl, hcomputations⟩ :=
        hcandidates candidate (List.mem_cons_self ..)
      have hmore : ∀ q, Step oracle t p q → q.asked.length ≤ most →
          Truncates most (tryCandidates ⟨perRoot, none⟩ oracle t rest q)
            (tryCandidates ⟨perRoot, some most⟩ oracle t rest q) := fun q hq =>
        tryCandidates_truncates rest q (fun c hc => hcandidates c (List.mem_cons_of_mem _ hc))
          (hq.counted hcounted)
      by_cases hleft : p.asked.length < most
      · have hbound : SearchLimits.allowsCall ⟨perRoot, some most⟩ p.statistics.oracleCalls
            = true := by simpa [SearchLimits.allowsCall, hcounted.calls] using hleft
        have hnone : SearchLimits.allowsCall ⟨perRoot, none⟩ p.statistics.oracleCalls = true :=
          rfl
        rw [tryCandidates_single hcomputations, tryCandidates_single hcomputations, hbound, hnone]
        simp only [Bool.true_eq_false, if_false]
        by_cases hempty : computations = []
        · rw [if_pos hempty, if_pos hempty]
          exact hmore _ (.skipped p) hmost
        · rw [if_neg hempty, if_neg hempty]
          have hmark : Marking t (.parallel loop computations) :=
            ⟨loop, computations, rfl, hcomputations, hempty⟩
          have htried : (p.tried oracle (.parallel loop computations)).asked.length ≤ most := by
            simpa [Nat.succ_le_iff] using hleft
          cases hend : ending? (p.answer oracle (.parallel loop computations)) with
          | some halt => exact .whole htried
          | none => exact hmore _ (.tried p hmark (by simp [hend])) htried
      · -- the bound is met, and the other search goes on from here
        have hbound : SearchLimits.allowsCall ⟨perRoot, some most⟩ p.statistics.oracleCalls
            = false := by simpa [SearchLimits.allowsCall, hcounted.calls] using hleft
        have hspent : tryCandidates ⟨perRoot, some most⟩ oracle t ([loop] :: rest) p
            = (p, some .spent) := by
          rw [tryCandidates_single hcomputations, if_pos hbound]
        rw [hspent]
        exact .cut_of_reaches (by omega) (.refl p) hfree

theorem tryRoots_truncates {perRoot : Option Nat} {most : Nat}
    {candidates : OrderedMap LoopId (List Candidate)} :
    ∀ (roots : List LoopId) (p : Progress), Offered t candidates roots →
      Counted oracle p → p.asked.length ≤ most →
      Truncates most (tryRoots ⟨perRoot, none⟩ oracle t candidates roots p)
        (tryRoots ⟨perRoot, some most⟩ oracle t candidates roots p)
  | [], p, _, _, hmost => .whole hmost
  | root :: rest, p, hroots, hcounted, hmost => by
      obtain ⟨found, hfound, hsingle⟩ := hroots root (List.mem_cons_self ..)
      have hrest := fun r hr => hroots r (List.mem_cons_of_mem _ hr)
      have hcut : ∀ c ∈ SearchLimits.cut ⟨perRoot, none⟩ found, Single t c :=
        fun c hc => hsingle c (mem_cut hc)
      have hvisit : Counted oracle p.visit := (Step.visited (t := t) p).counted hcounted
      have hnow : Truncates most
          (tryCandidates ⟨perRoot, none⟩ oracle t (SearchLimits.cut ⟨perRoot, none⟩ found) p.visit)
          (tryCandidates ⟨perRoot, some most⟩ oracle t
            (SearchLimits.cut ⟨perRoot, none⟩ found) p.visit) :=
        tryCandidates_truncates _ p.visit hcut hvisit hmost
      have hfree : Reaches oracle t p.visit
          (tryCandidates ⟨perRoot, none⟩ oracle t (SearchLimits.cut ⟨perRoot, none⟩ found)
            p.visit) := tryCandidates_reaches _ p.visit hcut
      have hsame : SearchLimits.cut ⟨perRoot, some most⟩ found
          = SearchLimits.cut ⟨perRoot, none⟩ found := rfl
      rw [tryRoots, tryRoots, hfound]
      simp only [hsame]
      generalize tryCandidates ⟨perRoot, none⟩ oracle t (SearchLimits.cut ⟨perRoot, none⟩ found)
        p.visit = free at hnow hfree
      generalize tryCandidates ⟨perRoot, some most⟩ oracle t
        (SearchLimits.cut ⟨perRoot, none⟩ found) p.visit = bound at hnow
      cases hnow with
      | whole hlength =>
        cases hfree with
        | done hsteps =>
          have hcounted' := hsteps.invariant (fun _ _ hs hp => hs.counted hp) hvisit
          exact tryRoots_truncates rest _ hrest hcounted' hlength
        | spent => exact .whole hlength
        | failed => exact .whole hlength
      | cut hq hextends hfailed =>
        obtain ⟨r, _ | halt⟩ := free
        · exact .cut_of_reaches hq hextends (tryRoots_reaches rest r hrest)
        · exact .cut hq hextends hfailed

/-- The actions of an outcome, none if nothing was found. -/
def Outcome.actions (outcome : Outcome) : List Action :=
  (outcome.schedule.map Schedule.actions).getD []

theorem Progress.actions_outcome (p : Progress) : p.outcome.actions = p.best.actions := by
  cases hbest : p.best.actions <;> simp [Outcome.actions, outcome, Schedule.isEmpty, hbest]

/-- What a bound on calls leaves of a search, whatever the oracle answers and
however many candidates of a root are looked at.

The bounded search asks the first so many of the queries.  It fails with an
error exactly if the other one does without asking more; where more would be
asked it returns an outcome.  The actions it finds are the first of those
that the other one finds, and are made of the trials that were judged legal
among its queries: these are the beginnings of its schedule, shortest first. -/
theorem run_budgeted {program : Program} (h : program.forest.Reachable) (perRoot : Option Nat)
    (most : Nat) (oracle : Oracle) :
    let free := run ⟨perRoot, none⟩ oracle program
    let bound := run ⟨perRoot, some most⟩ oracle program
    bound.2 = free.2.take most ∧
    (∀ e, bound.1 = .error e ↔ free.1 = .error e ∧ free.2.length ≤ most) ∧
    (most < free.2.length → ∃ outcome, bound.1 = .ok outcome) ∧
    ∀ outcome, bound.1 = .ok outcome →
      oracle.approved (free.2.take most) = outcome.actions.inits.tail ∧
      ∀ whole, free.1 = .ok whole → outcome.actions <+: whole.actions := by
  intro free bound
  obtain ⟨candidates, hcandidates, hroots⟩ := exists_candidates h.sound.toLinked
  have htruncates := @tryRoots_truncates oracle _ perRoot most candidates program.forest.roots
    (.start program) hroots (counted_start oracle program) (Nat.zero_le _)
  have hreaches : Reaches oracle program.forest (.start program)
    (tryRoots ⟨perRoot, some most⟩ oracle program.forest candidates program.forest.roots
      (.start program)) := tryRoots_reaches _ _ hroots
  have hfree : free = returned _ := run_eq_returned hcandidates ⟨perRoot, none⟩ oracle
  have hbound : bound = returned _ := run_eq_returned hcandidates ⟨perRoot, some most⟩ oracle
  have herror : ∀ e, bound.1 = .error e ↔ free.1 = .error e ∧ free.2.length ≤ most := by
    intro e
    rw [hfree, hbound, returned_eq_error_iff, returned_eq_error_iff, returned_snd]
    exact htruncates.failed_iff e
  refine ⟨?_, herror, ?_, ?_⟩
  · rw [hfree, hbound, returned_snd, returned_snd]
    exact htruncates.asked_eq
  · intro hlength
    cases hresult : bound.1 with
    | ok outcome => exact ⟨outcome, rfl⟩
    | error e =>
      have := ((herror e).1 hresult).2
      omega
  · intro outcome houtcome
    rw [hbound, returned_eq_ok_iff] at houtcome
    obtain ⟨hne, rfl⟩ := houtcome
    rw [hfree, returned_snd, ← htruncates.asked_eq, Progress.actions_outcome]
    refine ⟨(hreaches.steps hne).faithful, fun whole hwhole => ?_⟩
    obtain ⟨-, rfl⟩ := returned_eq_ok_iff.1 hwhole
    rw [Progress.actions_outcome]
    exact htruncates.extended.actions

/-- Three loops of `branching` are tried until one is accepted; with two calls
there is nothing found yet. -/
theorem branching_budgeted :
    let oracle := Oracle.scripted [.ok false, .ok false] (.ok true) [] (.ok none)
    ∃ t, Forest.ofTable .branching = .ok t ∧
      let program : Program := ⟨"branching", .branching, t⟩
      (run ⟨none, some 2⟩ oracle program).2 =
        [.legality program [.parallel ⟨"i"⟩ ["S", "T"]],
          .legality program [.parallel ⟨"j"⟩ ["S"]]] ∧
      ∃ outcome, (run ⟨none, some 2⟩ oracle program).1 = .ok outcome := by
  intro oracle
  refine ⟨_, rfl, ?_⟩
  intro program
  have hbudgeted := @run_budgeted program (.built (a := .branching) rfl) none 2 oracle
  exact ⟨hbudgeted.1.trans rfl, hbudgeted.2.2.1 (by decide +kernel)⟩

end Search

end LoopNest
