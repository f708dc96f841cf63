import LoopNest.Proofs.Schedule.Calls
import LoopNest.Proofs.Search.Outages
import LoopNest.Proofs.Search.Verdicts

/-!
LoopNest.Proofs.Search.Calls — the compiler is told what was found.

A schedule that a search returns marks loops of different roots, and loops
below different roots have no computation in common.  So a computation is
targeted by one action at most, the calls of the schedule come to one line
for each targeted computation, and what the line says is a level.  The
compiler, which knows only the computation and the level, is led back by
them to the loop that the search had in mind.

* `Marks.eq_parallel` — an action that marks a loop, spelled out;
* `pairwise_untargeted`, `filter_targets` — one action for a computation;
* `tags`, `calls_eq_tags` — the lines of the calls;
* `Coherent`, `run_calls_coherent` — how they fit the forest.
-/

namespace LoopNest

namespace Search

variable {t : Forest} {actions : List Action}

/-! ## One action for a computation -/

/-- The marked loop lies below its root, and all that is computed inside it is
targeted. -/
theorem Marks.eq_parallel (h : t.Sound) {root : LoopId} {action : Action}
    (hmarks : Marks t root action) : ∃ loop n, root ∈ t.roots ∧ loop ∈ t.inside root ∧
      t.nodes[loop]? = some n ∧
      action = .parallel loop ((t.inside loop).flatMap t.computationsOf) := by
  obtain ⟨loop, computations, rfl, hroot, hcomputations, -⟩ := hmarks
  obtain ⟨n, hn⟩ := Forest.exists_node_of_subtreeComputations hcomputations
  obtain ⟨hmem, hloop⟩ := h.toLinked.mem_inside_of_rootOf hn hroot
  rw [h.toLinked.subtreeComputations_eq hn] at hcomputations
  cases hcomputations
  exact ⟨loop, n, hmem, hloop, hn, rfl⟩

/-- No computation is targeted for two roots. -/
theorem Marks.root_unique (h : t.Sound) {r q : LoopId} {a b : Action} (ha : Marks t r a)
    (hb : Marks t q b) {c : String} (hca : c ∈ a.computations) (hcb : c ∈ b.computations) :
    r = q := by
  obtain ⟨x, -, hr, hx, -, rfl⟩ := ha.eq_parallel h
  obtain ⟨y, -, hq, hy, -, rfl⟩ := hb.eq_parallel h
  exact h.root_unique hr hq hx hy hca hcb

/-- Every action marks a loop of some root. -/
theorem exists_marks {action : Action} : ∀ {roots : List LoopId} {actions : List Action},
    List.Forall₂ (Marks t) roots actions → action ∈ actions →
    ∃ root ∈ roots, Marks t root action
  | _, _, .nil, haction => absurd haction List.not_mem_nil
  | root :: _, _ :: _, .cons hmarks hothers, haction => by
      rcases List.mem_cons.1 haction with rfl | haction
      · exact ⟨root, List.mem_cons_self .., hmarks⟩
      · obtain ⟨r, hr, hmarks⟩ := exists_marks hothers haction
        exact ⟨r, List.mem_cons_of_mem _ hr, hmarks⟩

/-- Actions for different roots target different computations. -/
theorem pairwise_untargeted (h : t.Sound) (c : String) : ∀ {roots : List LoopId}
    {actions : List Action}, roots.Nodup → List.Forall₂ (Marks t) roots actions →
    actions.Pairwise fun a b => c ∈ a.computations → c ∉ b.computations
  | _, _, _, .nil => .nil
  | root :: rest, action :: others, hnd, .cons hmarks hothers => by
      obtain ⟨hroot, hrest⟩ := List.nodup_cons.1 hnd
      refine .cons (fun b hb hca hcb => ?_) (pairwise_untargeted h c hrest hothers)
      obtain ⟨q, hq, hmarksq⟩ := exists_marks hothers hb
      rw [hmarks.root_unique h hmarksq hca hcb] at hroot
      exact hroot hq

/-- The one action that targets a computation. -/
theorem filter_targets {c : String} {action : Action} : ∀ {actions : List Action},
    actions.Pairwise (fun a b => c ∈ a.computations → c ∉ b.computations) →
    action ∈ actions → c ∈ action.computations →
    actions.filter (fun a => c ∈ a.computations) = [action]
  | [], _, haction, _ => absurd haction List.not_mem_nil
  | a :: rest, .cons ha hrest, haction, hc => by
      rcases List.mem_cons.1 haction with rfl | haction
      · have hnone : rest.filter (fun a => c ∈ a.computations) = [] := by
          rw [List.filter_eq_nil_iff]
          intro b hb
          simpa using ha b hb hc
        rw [List.filter_cons_of_pos (by simpa using hc), hnone]
      · have hca : c ∉ a.computations := fun hca => ha action haction hca hc
        rw [List.filter_cons_of_neg (by simpa using hca), filter_targets hrest haction hc]

/-! ## Lines -/

/-- The level of the loop that an action marks. -/
def markedLevel (t : Forest) (action : Action) : Nat :=
  (action.loops.head?.bind fun loop => t.nodes[loop]?).elim 0 Node.level

/-- What the calls for a computation say, if all actions mark loops: the
computation, with the level of the marked loop. -/
def tagsFor (t : Forest) (actions : List Action) (c : String) : List (String × Nat) :=
  (actions.filter fun action => c ∈ action.computations).map fun action =>
    (c, markedLevel t action)

/-- What all calls of a schedule of markings say. -/
def tags (t : Forest) (actions : List Action) : List (String × Nat) :=
  t.computations.flatMap (tagsFor t actions)

/-- The line that says so to the compiler. -/
def tagLine (tag : String × Nat) : String :=
  "\n\t" ++ tag.1 ++ ".tag_parallel_level(" ++ tag.2.repr ++ ");"

theorem markedLevel_parallel {loop : LoopId} {n : Node} (hn : t.nodes[loop]? = some n)
    (computations : List String) : markedLevel t (.parallel loop computations) = n.level := by
  simp [markedLevel, Action.loops, Action.parallel, hn]

/-- The lines for a computation, if all actions mark loops. -/
theorem linesFor_eq (hkind : ∀ action ∈ actions, action.kind = .parallelization) (c : String) :
    Schedule.linesFor (fun action => [(markedLevel t action).repr]) actions c
      = (tagsFor t actions c).map tagLine := by
  rw [Schedule.linesFor, tagsFor, List.map_map]
  refine List.map_congr_left fun action haction => ?_
  rw [hkind action (List.mem_of_mem_filter haction), Function.comp_apply, tagLine,
    Action.callLine, Kind.callName, String.intercalate_singleton]
  simp [String.append_assoc]

theorem Marks.paramTexts_eq (h : t.Sound) {root : LoopId} {action : Action}
    (hmarks : Marks t root action) :
    Action.paramTexts t action.params = .ok [(markedLevel t action).repr] := by
  obtain ⟨loop, n, -, -, hn, rfl⟩ := hmarks.eq_parallel h
  rw [markedLevel_parallel hn, Action.parallel, Action.paramTexts, Param.text, Forest.node_eq hn]
  rfl

/-- Only computations of the forest are targeted. -/
theorem Marks.mem_computations (h : t.Sound) {root : LoopId} {action : Action}
    (hmarks : Marks t root action) {c : String} (hc : c ∈ action.computations) :
    c ∈ t.computations := by
  obtain ⟨loop, n, -, -, -, rfl⟩ := hmarks.eq_parallel h
  obtain ⟨owner, -, hc⟩ := List.mem_flatMap.1 hc
  exact h.mem_computations_iff.2 ⟨owner, h.owner_iff.2 (Forest.mem_computationsOf.1 hc)⟩

/-- The calls of a schedule of markings are its tags, a line each. -/
theorem calls_eq_tags {s : Schedule} (h : s.program.forest.Sound) {roots : List LoopId}
    (hmarks : List.Forall₂ (Marks s.program.forest) roots s.actions) :
    s.calls = .ok (String.join ((tags s.program.forest s.actions).map tagLine)) := by
  have hkind : ∀ action ∈ s.actions, action.kind = .parallelization := by
    intro action haction
    obtain ⟨root, -, loop, computations, rfl, -⟩ := exists_marks hmarks haction
    rfl
  have hparams : ∀ action ∈ s.actions, Action.paramTexts s.program.forest action.params
      = .ok [(markedLevel s.program.forest action).repr] := by
    intro action haction
    obtain ⟨root, -, hmarks⟩ := exists_marks hmarks haction
    exact hmarks.paramTexts_eq h
  have horder : s.callOrder = s.program.forest.computations := by
    refine Schedule.callOrder_eq fun action haction c hc => ?_
    obtain ⟨root, -, hmarks⟩ := exists_marks hmarks haction
    rw [h.rank?_eq, if_pos (hmarks.mem_computations h hc)]
    rfl
  rw [Schedule.calls, horder, Schedule.callsForAll_eq hparams, funext (linesFor_eq hkind), tags,
    List.map_flatMap]

theorem mem_tags {c : String} {level : Nat} : (c, level) ∈ tags t actions ↔
    c ∈ t.computations ∧
      ∃ action ∈ actions, c ∈ action.computations ∧ level = markedLevel t action := by
  simp only [tags, tagsFor, List.mem_flatMap, List.mem_map, List.mem_filter, decide_eq_true_eq,
    Prod.mk.injEq]
  constructor
  · rintro ⟨c, hc, action, ⟨haction, hca⟩, rfl, rfl⟩
    exact ⟨hc, action, haction, hca, rfl⟩
  · rintro ⟨hc, action, haction, hca, rfl⟩
    exact ⟨c, hc, action, ⟨haction, hca⟩, rfl, rfl⟩

/-- With one action for a computation there is one tag for it at most. -/
theorem sublist_tagsFor
    (h : ∀ c, actions.Pairwise fun a b => c ∈ a.computations → c ∉ b.computations) :
    ∀ names : List String, ((names.flatMap (tagsFor t actions)).map Prod.fst).Sublist names
  | [] => .slnil
  | c :: rest => by
      rw [List.flatMap_cons, List.map_append, tagsFor]
      by_cases hc : ∃ action ∈ actions, c ∈ action.computations
      · obtain ⟨action, haction, hc⟩ := hc
        rw [filter_targets (h c) haction hc]
        exact (sublist_tagsFor h rest).cons_cons c
      · have hnone : actions.filter (fun action => c ∈ action.computations) = [] := by
          rw [List.filter_eq_nil_iff]
          intro action haction
          simpa using fun hca => hc ⟨action, haction, hca⟩
        rw [hnone]
        exact (sublist_tagsFor h rest).cons c

/-! ## Coherence -/

/-- Tags that fit a forest and the actions of a schedule. -/
structure Coherent (t : Forest) (actions : List Action) (tags : List (String × Nat)) : Prop where
  /-- what lies below the loops of the actions, and nothing else, is tagged -/
  targets : ∀ c, c ∈ tags.map Prod.fst ↔ ∃ action ∈ actions, ∃ loop ∈ action.loops,
    ∃ inside, t.subtreeComputations loop = .ok inside ∧ c ∈ inside
  once : (tags.map Prod.fst).Nodup
  ranked : tags.Pairwise fun a b => ∃ i j, t.rank? a.1 = some i ∧ t.rank? b.1 = some j ∧ i < j
  /-- a tag leads back to the loop of the one action that targets its
  computation -/
  leads_back : ∀ tag ∈ tags, ∃ action loop node,
    actions.filter (fun a => tag.1 ∈ a.computations) = [action] ∧ action.loops = [loop] ∧
      t.loopOf tag.1 (some tag.2) = .ok node ∧ node.id = loop ∧ t.node loop = .ok node

theorem tags_coherent (h : t.Sound) {roots : List LoopId} (hnd : roots.Nodup)
    (hmarks : List.Forall₂ (Marks t) roots actions) : Coherent t actions (tags t actions) := by
  have honly := fun c => pairwise_untargeted h c hnd hmarks
  have hsub : ((tags t actions).map Prod.fst).Sublist t.computations :=
    sublist_tagsFor honly t.computations
  refine ⟨fun c => ?_, h.nodup_computations.sublist hsub, ?_, ?_⟩
  · constructor
    · intro hc
      obtain ⟨⟨c, level⟩, htag, rfl⟩ := List.mem_map.1 hc
      obtain ⟨-, action, haction, hc, -⟩ := mem_tags.1 htag
      obtain ⟨root, -, loop, computations, rfl, -, hcomputations, -⟩ := exists_marks hmarks haction
      exact ⟨_, haction, loop, List.mem_singleton_self _, computations, hcomputations, hc⟩
    · rintro ⟨action, haction, loop, hloop, inside, hinside, hc⟩
      obtain ⟨root, -, hmarked⟩ := exists_marks hmarks haction
      obtain ⟨x, n, -, -, hn, rfl⟩ := hmarked.eq_parallel h
      obtain rfl : loop = x := List.mem_singleton.1 hloop
      rw [h.toLinked.subtreeComputations_eq hn] at hinside
      cases hinside
      have hmem : c ∈ t.computations := hmarked.mem_computations h hc
      exact List.mem_map.2 ⟨(c, _), mem_tags.2 ⟨hmem, _, haction, hc, rfl⟩, rfl⟩
  · exact List.pairwise_map.1 (h.pairwise_rank.sublist hsub)
  · rintro ⟨c, level⟩ htag
    obtain ⟨-, action, haction, hc, rfl⟩ := mem_tags.1 htag
    obtain ⟨root, -, hmarked⟩ := exists_marks hmarks haction
    obtain ⟨loop, n, -, -, hn, rfl⟩ := hmarked.eq_parallel h
    refine ⟨_, loop, n, filter_targets (honly c) haction hc, rfl, ?_, h.id_eq hn,
      Forest.node_eq hn⟩
    rw [markedLevel_parallel hn]
    exact h.loopOf_eq hn hc

/-- What the compiler is told of a schedule that a search returns, whatever the
limits and whatever the oracle answers.

The schedule can be written both ways.  Its calls are a list of lines, one
for each computation inside the loops of its actions, in canonical order,
and the level on a line is that of the loop which the one action on the
computation marks. -/
theorem run_calls_coherent {program : Program} (h : program.forest.Reachable)
    (limits : SearchLimits) (oracle : Oracle) {outcome : Outcome} {s : Schedule}
    (hrun : (run limits oracle program).1 = .ok outcome) (hs : outcome.schedule = some s) :
    s.program = program ∧ (∃ form, s.shortForm = .ok form) ∧
      ∃ tags, s.calls = .ok (String.join (tags.map tagLine)) ∧
        Coherent program.forest s.actions tags := by
  have hsound := h.sound
  rcases run_ended hsound.toLinked limits oracle with ⟨p, hended, hbacked⟩ | ⟨e, asked, hended, -⟩
  · rw [hended] at hrun
    cases hrun
    obtain ⟨rfl, -, -, -, roots, hnd, -, hmarks⟩ := hbacked.of_schedule_eq_some hsound.toLinked hs
    have hmarking : ∀ action ∈ s.actions, Marking s.program.forest action := by
      intro action haction
      obtain ⟨root, -, loop, computations, haction, -, hcomputations, hne⟩ :=
        exists_marks hmarks haction
      exact ⟨loop, computations, haction, hcomputations, hne⟩
    obtain ⟨forms, hforms⟩ := exists_shortForms hmarking
    have hshort : s.shortForm = .ok ("|".intercalate forms) := by
      rw [Schedule.shortForm, hforms]
      rfl
    exact ⟨rfl, ⟨_, hshort⟩, tags s.program.forest s.actions, calls_eq_tags hsound hmarks,
      tags_coherent hsound hnd hmarks⟩
  · rw [hended] at hrun
    cases hrun

/-- In `branching`, its loops `i` and `k` swapped, an oracle declines `k` and
`j` and accepts `i`: the compiler is told to mark what is now at level 1
around `T`. -/
theorem branching_calls_coherent :
    ∃ t u, Forest.ofTable .branching = .ok t ∧ t.interchange ⟨"i"⟩ ⟨"k"⟩ = .ok u ∧
      ∃ outcome s, (run {} (.scripted [.ok false, .ok false] (.ok true) [] (.ok none))
        ⟨"branching", .branching, u⟩).1 = .ok outcome ∧ outcome.schedule = some s ∧
      s.calls.toOption = some "\n\tT.tag_parallel_level(1);" ∧
      ∃ tags, s.calls = .ok (String.join (tags.map tagLine)) ∧ Coherent u s.actions tags := by
  obtain ⟨t, ht⟩ : ∃ t, Forest.ofTable .branching = .ok t := ⟨_, rfl⟩
  obtain ⟨u, hu⟩ : ∃ u, t.interchange ⟨"i"⟩ ⟨"k"⟩ = .ok u := by
    cases ht
    exact ⟨_, rfl⟩
  have hreachable : u.Reachable := .interchanged (.built ht) hu
  obtain ⟨outcome, s, hrun, hs, hcalls⟩ : ∃ outcome s,
      (run {} (.scripted [.ok false, .ok false] (.ok true) [] (.ok none))
        ⟨"branching", .branching, u⟩).1 = .ok outcome ∧ outcome.schedule = some s ∧
      s.calls.toOption = some "\n\tT.tag_parallel_level(1);" := by
    cases ht
    cases hu
    exact ⟨_, _, rfl, rfl, by decide +kernel⟩
  exact ⟨t, u, ht, hu, outcome, s, hrun, hs, hcalls,
    (run_calls_coherent hreachable _ _ hrun hs).2.2⟩

end Search

end LoopNest
