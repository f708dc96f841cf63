import LoopNest.Proofs.Action.LoopPairs
import LoopNest.Proofs.Schedule.Memory
import LoopNest.Proofs.Search.Budget
import LoopNest.Proofs.Search.Turns

/-!
LoopNest.Proofs.Search.Outermost — the outermost acceptable loop wins.

The loops of a root do not come level by level, but each comes after those
that enclose it; and a loop is skipped only if there is nothing to compute
inside, so a loop that is tried has no skipped loop around it.  Limits cut
off only the end.  So when a trial is accepted, the loops around its own
have all been tried, added to the same best schedule, and none was found
legal (`Turn.outermostFirst`).  As every loop is looked at once at most, no
two trials end in the same loop (`Turn.lastLoops`).

* `OutermostFirst` — the first of these properties, of a record of queries;
* `Orderly`, `Orderly.turn` — what a search keeps from root to root;
* `run_outermost_first` — both, for every search.
-/

namespace LoopNest

/-- The actions that a query is about. -/
def Query.schedule : Query → List Action
  | .legality _ schedule => schedule
  | .skewing _ schedule _ _ => schedule

/-- The loops of the last action that a query is about. -/
def Query.lastLoops (query : Query) : List LoopId :=
  (query.schedule.getLast?.map Action.loops).getD []

/-- What encloses a loop with something to compute inside has this inside as
well. -/
theorem Forest.Linked.exists_marking {t : Forest} (h : t.Linked) {outer loop : LoopId}
    (houter : t.Encloses outer loop) {action : Action} (hmark : t.marking? loop = some action) :
    ∃ computations, t.subtreeComputations outer = .ok computations ∧
      t.marking? outer = some (.parallel outer computations) := by
  have habove := h.above_iff_encloses.2 houter
  obtain ⟨⟨m, hm⟩, n, hn⟩ := habove.exists_nodes
  obtain ⟨computations, hcomputations, hne, -⟩ := marking?_eq_some_iff.1 hmark
  rw [h.subtreeComputations_eq hn] at hcomputations
  cases hcomputations
  obtain ⟨c, hc⟩ := List.exists_mem_of_ne_nil _ hne
  obtain ⟨x, hx, hc⟩ := List.mem_flatMap.1 hc
  obtain ⟨k, hk⟩ := h.exists_node_of_mem_inside hn hx
  have hinside := h.mem_inside_trans hm hn hk ((h.above_iff hm hn).1 habove).2 hx
  refine ⟨_, h.subtreeComputations_eq hm,
    marking?_eq_some_iff.2 ⟨_, h.subtreeComputations_eq hm, ?_, rfl⟩⟩
  exact List.ne_nil_of_mem (List.mem_flatMap.2 ⟨x, hinside, hc⟩)

theorem mem_of_pair_sublist {α : Type} {l l' : List α} {a x : α} (hnodup : (l ++ x :: l').Nodup)
    (h : [a, x].Sublist (l ++ x :: l')) : a ∈ l := by
  obtain ⟨before, after, hsplit, ha, hx⟩ := List.cons_sublist_iff.1 h
  rw [List.singleton_sublist] at hx
  rcases List.append_eq_append_iff.1 hsplit with ⟨more, rfl, hmore⟩ | ⟨more, rfl, -⟩
  · cases more with
    | nil => simpa using ha
    | cons y more =>
      -- `x` would stand on both sides of the split
      obtain ⟨rfl, rfl⟩ := List.cons.inj hmore
      simp [List.nodup_append, hx] at hnodup
  · exact List.mem_append_left _ ha

namespace Search

variable {limits : SearchLimits} {oracle : Oracle} {program : Program} {p q : Progress}
  {loops : LoopId → List LoopId}

/-- Each loop that encloses `loop` has been asked about, its marking added to
`base`, and has not been found legal. -/
def TriedAround (oracle : Oracle) (program : Program) (asked : List Query) (base : List Action)
    (loop : LoopId) : Prop :=
  ∀ outer, program.forest.Encloses outer loop → ∃ computations answer,
    program.forest.subtreeComputations outer = .ok computations ∧
    oracle.Answered asked program (base ++ [.parallel outer computations]) answer ∧
    answer ≠ .ok true

/-- Wherever a trial was judged legal, its last action marks a loop, and the
loops around that one had been tried before. -/
def OutermostFirst (oracle : Oracle) (program : Program) (asked : List Query) : Prop :=
  ∀ earlier base action, earlier ++ [.legality program (base ++ [action])] <+: asked →
    oracle.judge earlier program (base ++ [action]) = .ok true →
    ∃ loop computations, action = .parallel loop computations ∧
      TriedAround oracle program earlier base loop

/-- Of one more query something is to be known only if it is judged legal. -/
theorem OutermostFirst.concat {asked : List Query} (h : OutermostFirst oracle program asked)
    {best : List Action} {last : Action}
    (hlast : oracle.judge asked program (best ++ [last]) = .ok true →
      ∃ loop computations, last = .parallel loop computations ∧
        TriedAround oracle program asked best loop) :
    OutermostFirst oracle program (asked ++ [.legality program (best ++ [last])]) := by
  intro earlier base action hbegins hlegal
  rcases List.prefix_concat_iff.1 hbegins with heq | hbegins
  · obtain ⟨rfl, hquery⟩ := List.append_inj' heq rfl
    simp only [List.cons.injEq, Query.legality.injEq, true_and, and_true] at hquery
    obtain ⟨rfl, hsame⟩ := List.append_inj' hquery rfl
    obtain rfl := List.singleton_inj.1 hsame
    exact hlast hlegal
  · exact h earlier base action hbegins hlegal

/-! ## Turns -/

/-- A loop that is passed by with something to compute inside was tried, and
in vain. -/
theorem Passed.answered {t : Forest} {looked : List LoopId} (h : Passed oracle t p looked q)
    {loop : LoopId} {action : Action} (hloop : loop ∈ looked)
    (hmark : t.marking? loop = some action) :
    ∃ answer, oracle.Answered q.asked p.best.program (p.best.actions ++ [action]) answer ∧
      answer ≠ .ok true := by
  induction h with
  | nil => cases hloop
  | skipped hnone _ ih =>
    rcases List.mem_cons.1 hloop with rfl | hloop
    · simp [Forest.marking?_eq hnone] at hmark
    · exact ih hloop
  | @refused p q first _ looked hthis hend hrest ih =>
    have hne := ne_legal_of_ending? hend
    rcases List.mem_cons.1 hloop with rfl | hloop
    · cases hthis.symm.trans hmark
      refine ⟨_, ⟨p.asked, (looked.filterMap t.marking?).map (p.tried oracle action).trial,
        ?_, rfl⟩, hne⟩
      rw [hrest.looked.asked, Progress.asked_tried, List.append_assoc]
      rfl
    · rw [Progress.best_tried_of_ne hne] at ih
      exact ih hloop

theorem Passed.outermostFirst {looked : List LoopId}
    (h : Passed oracle program.forest p looked q) (hprogram : p.best.program = program)
    (hfirst : OutermostFirst oracle program p.asked) :
    OutermostFirst oracle program q.asked := by
  induction h with
  | nil => exact hfirst
  | skipped _ _ ih => exact ih hprogram hfirst
  | @refused p q loop action looked _ hend _ ih =>
    have hne := ne_legal_of_ending? hend
    refine ih (Progress.program_tried.trans hprogram) ?_
    rw [Progress.asked_tried, hprogram]
    refine hfirst.concat fun hlegal => absurd ?_ hne
    rw [Progress.answer, hprogram]
    exact hlegal

/-- A turn goes on asking about outer loops first. -/
theorem Turn.outermostFirst {candidates : OrderedMap LoopId (List Candidate)}
    (hloops : OutsideIn program.forest candidates loops) (hlinked : program.forest.Linked)
    {root : LoopId} (hr : root ∈ program.forest.roots) {looked : List LoopId}
    {halt : Option Halt}
    (h : Turn limits oracle program.forest (limits.cut (loops root)) p looked (q, halt))
    (hprogram : p.best.program = program) (hfirst : OutermostFirst oracle program p.asked) :
    OutermostFirst oracle program q.asked := by
  cases h with
  | exhausted hpassed => exact hpassed.outermostFirst hprogram hfirst
  | spent _ hpassed _ => exact hpassed.outermostFirst hprogram hfirst
  | @settled q looked left loop action _ hsplit hpassed hmark _ =>
    obtain ⟨computations, hcomputations, -, rfl⟩ := Forest.marking?_eq_some_iff.1 hmark
    rw [Progress.asked_tried, hpassed.best_eq.1, hprogram]
    refine (hpassed.outermostFirst hprogram hfirst).concat fun _ => ⟨loop, _, rfl, ?_⟩
    intro outer houter
    -- the loops that enclose this one stand before it, so they have been passed by
    obtain ⟨rest, hwhole⟩ := cut_isPrefix limits (loops root)
    rw [hsplit, List.append_assoc, List.cons_append] at hwhole
    have hbefore := hloops.outside_in root hr loop (by simp [← hwhole]) outer
      (hlinked.above_iff_encloses.2 houter)
    obtain ⟨n, hn, -⟩ := hlinked.exists_node_of_mem_roots hr
    have hnodup := (hloops.perm root hr).nodup_iff.2 (hlinked.nodup_inside hn)
    rw [← hwhole] at hbefore hnodup
    obtain ⟨found, hfound, houtermark⟩ := hlinked.exists_marking houter hmark
    obtain ⟨answer, hanswered, hne⟩ :=
      hpassed.answered (mem_of_pair_sublist hnodup hbefore) houtermark
    exact ⟨found, answer, hfound, hprogram ▸ hanswered, hne⟩

/-- A trial ends in the loop that it marks. -/
theorem map_lastLoops_trial (t : Forest) (p : Progress) : ∀ looked : List LoopId,
    ((looked.filterMap t.marking?).map p.trial).map Query.lastLoops =
      (looked.filter fun loop => (t.marking? loop).isSome).map fun loop => [loop]
  | [] => rfl
  | loop :: rest => by
      rw [List.filterMap_cons, List.filter_cons]
      cases hmark : t.marking? loop with
      | none => exact map_lastLoops_trial t p rest
      | some action =>
        obtain ⟨computations, -, -, rfl⟩ := Forest.marking?_eq_some_iff.1 hmark
        have hlast : (p.trial (.parallel loop computations)).lastLoops = [loop] := by
          simp [Query.lastLoops, Query.schedule, Progress.trial]
          rfl
        simp only [List.map_cons, hlast, map_lastLoops_trial t p rest]
        rfl

/-- The trials of a turn are about some of its loops, each in turn. -/
theorem Turn.lastLoops {t : Forest} {ls looked : List LoopId} {halt : Option Halt}
    (h : Turn limits oracle t ls p looked (q, halt)) :
    ∃ tried : List LoopId, tried.Sublist ls ∧ q.asked.map Query.lastLoops =
      p.asked.map Query.lastLoops ++ tried.map fun loop => [loop] :=
  ⟨_, List.filter_sublist.trans h.isPrefix.sublist,
    by rw [h.looked_eq.asked, List.map_append, map_lastLoops_trial]⟩

/-! ## Searches -/

/-- What a search keeps that has visited some roots. -/
structure Orderly (oracle : Oracle) (program : Program) (loops : LoopId → List LoopId)
    (visited : List LoopId) (p : Progress) : Prop where
  program_eq : p.best.program = program
  outermostFirst : OutermostFirst oracle program p.asked
  /-- each trial is for a loop of its own -/
  once : ∃ tried : List LoopId, tried.Sublist (visited.flatMap loops) ∧
    p.asked.map Query.lastLoops = tried.map fun loop => [loop]

theorem orderly_start (oracle : Oracle) (program : Program) (loops : LoopId → List LoopId) :
    Orderly oracle program loops [] (.start program) := by
  refine ⟨rfl, fun earlier base action hbegins => ?_, [], List.Sublist.refl [], rfl⟩
  simp [Progress.start] at hbegins

theorem Orderly.turn {candidates : OrderedMap LoopId (List Candidate)}
    (hloops : OutsideIn program.forest candidates loops) (hlinked : program.forest.Linked)
    {visited : List LoopId} (h : Orderly oracle program loops visited p)
    {root : LoopId} (hr : root ∈ program.forest.roots) {looked : List LoopId}
    {halt : Option Halt} (hturn :
      Turn limits oracle program.forest (limits.cut (loops root)) p.visit looked (q, halt)) :
    Orderly oracle program loops (visited ++ [root]) q where
  program_eq := hturn.program_eq.trans h.program_eq
  outermostFirst := hturn.outermostFirst hloops hlinked hr h.program_eq h.outermostFirst
  once := by
    obtain ⟨tried, htried, hasked⟩ := h.once
    obtain ⟨more, hmore, hasked'⟩ := hturn.lastLoops
    refine ⟨tried ++ more, ?_, ?_⟩
    · rw [List.flatMap_append, List.flatMap_singleton]
      exact htried.append (hmore.trans (cut_isPrefix limits _).sublist)
    · rw [hasked', List.map_append]
      exact congrArg (· ++ _) hasked

/-- The outermost loop that the oracle accepts wins, and nothing is asked
twice, whatever the limits and whatever the oracle answers.

Where a trial was judged legal, and so an action added to the best schedule,
the loops that enclose the one it marks had been tried before on the same
schedule, and none of them was judged legal.  These trials are what the
schedule found is made of: its beginnings, shortest first.  No two queries
end in an action on the same loop, and so no two are about the same
actions. -/
theorem run_outermost_first {program : Program} (h : program.forest.Reachable)
    (limits : SearchLimits) (oracle : Oracle) :
    let asked := (run limits oracle program).2
    OutermostFirst oracle program asked ∧
    (∀ outcome, (run limits oracle program).1 = .ok outcome →
      oracle.approved asked = outcome.actions.inits.tail) ∧
    (∃ tried : List LoopId, tried.Nodup ∧
      asked.map Query.lastLoops = tried.map fun loop => [loop]) ∧
    (asked.map Query.schedule).Nodup := by
  intro asked
  have hlinked := h.sound.toLinked
  obtain ⟨candidates, loops, result, -, hloops, -, hrun, hreaches, hcourse⟩ :=
    run_course hlinked limits oracle
  have hasked : asked = result.1.asked := (congrArg Prod.snd hrun).trans (returned_snd _)
  obtain ⟨-, hfirst, tried, htried, hlast⟩ :=
    hcourse.invariant (fun _ _ _ _ _ _ hr hp hturn => hp.turn hloops hlinked hr hturn)
      (orderly_start oracle program loops)
  obtain ⟨rest, hroots⟩ := (@rounds_roots limits oracle program.forest candidates
    program.forest.roots (.start program)).1
  have hnodup : tried.Nodup := by
    have hall := hloops.nodup hlinked
    rw [← hroots, List.flatMap_append] at hall
    exact hall.sublist (htried.trans (List.sublist_append_left ..))
  rw [hrun, hasked]
  refine ⟨hfirst, ?_, ⟨tried, hnodup, hlast⟩, ?_⟩
  · intro outcome houtcome
    obtain ⟨hne, rfl⟩ := returned_eq_ok_iff.1 houtcome
    rw [Progress.actions_outcome]
    exact (hreaches.steps hne).faithful
  · have hlasts := hnodup.map (@List.singleton_injective LoopId)
    rw [← hlast] at hlasts
    refine .of_map (fun schedule => (schedule.getLast?.map Action.loops).getD []) ?_
    rw [List.map_map]
    exact hlasts

/-- In `branching` an oracle accepts the innermost loop of a chain only.  The
outer loop of the chain had been declined. -/
theorem branching_outermost_first :
    let oracle := Oracle.scripted
      [.ok false, .error (.oracleUnavailable .unparsable), .ok false] (.ok true) [] (.ok none)
    ∃ t, Forest.ofTable .branching = .ok t ∧
      let program : Program := ⟨"branching", .branching, t⟩
      let asked := (run {} oracle program).2
      asked.length = 4 ∧ ∃ answer, answer ≠ .ok true ∧
        oracle.Answered (asked.take 3) program [.parallel ⟨"k"⟩ ["T"]] answer := by
  intro oracle
  refine ⟨_, rfl, ?_⟩
  intro program asked
  obtain ⟨hfirst, -⟩ := @run_outermost_first program (.built (a := .branching) rfl) {} oracle
  obtain ⟨loop, computations, haction, haround⟩ :=
    hfirst (asked.take 3) [] (.parallel ⟨"l"⟩ ["T"]) ⟨[], rfl⟩ rfl
  cases haction
  obtain ⟨found, answer, hfound, hanswered, hne⟩ :=
    haround ⟨"k"⟩ (.single ⟨_, rfl, by decide +kernel⟩)
  cases hfound
  exact ⟨rfl, answer, hne, hanswered⟩

end Search

end LoopNest
