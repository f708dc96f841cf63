import LoopNest.Oracle.Skewing
import LoopNest.Proofs.Action.Targets

/-!
LoopNest.Proofs.Oracle.Skewing — two ways to a skewing.

A skewing is made from a candidate and two factors at hand, or the oracle is asked
for the factors.  The first way collects what is inside both loops and leaves out
repeated names; the second takes what is inside the outer loop and looks no
further.  A candidate's outer loop is passed through, so nothing is lost.

* `Linked.skewingTargets_eq` — what is known before the oracle is asked;
* `Oracle.resolveFactors_eq` — one question, whatever the answer;
* `Action.solvedSkewing_agrees` — the two ways agree.
-/

namespace LoopNest

open Forest

/-- The oracle is asked once, and its answer is passed on. -/
theorem Oracle.resolveFactors_eq (oracle : Oracle) (asked : List Query) (program : Program)
    (levels : Nat × Nat) (schedule : List Action) (computations : List String) :
    oracle.resolveFactors asked program levels schedule computations =
      (match oracle.solve asked program schedule levels computations with
       | .ok (some factors) => .ok factors
       | .ok none => .error (.unsolved levels.1 levels.2)
       | .error e => .error e,
       asked ++ [.skewing program schedule levels computations]) := by
  rw [resolveFactors, askSkewing]
  rcases oracle.solve asked program schedule levels computations with e | _ | factors <;> rfl

/-- Of a loop that is passed through and the next one the levels are known, and
the work, if there is any. -/
theorem Forest.Linked.skewingTargets_eq {t : Forest} (h : t.Linked) {outer inner : LoopId}
    (hpasses : t.PassesTo outer inner) {n : Node} (hn : t.nodes[outer]? = some n)
    {work : List String} (hwork : t.subtreeComputations outer = .ok work) :
    Action.skewingTargets t outer inner =
      if work = [] then .error (.noTargets Kind.skewing)
      else .ok ((n.level, n.level + 1), work) := by
  obtain ⟨n', hn', hchildren, -⟩ := hpasses
  rw [hn] at hn'
  cases hn'
  obtain ⟨m, hm, -, hlevel⟩ := h.child hn (c := inner) (by simp [hchildren])
  simp only [Action.skewingTargets, node_eq hn, node_eq hm, hwork, ok_bind, hlevel,
    List.isEmpty_iff]

namespace Action

/-- With something to target two loops and two factors make a skewing. -/
theorem skewing_eq (outer inner : LoopId) (factors : Int64 × Int64) {computations : List String}
    (hne : computations ≠ []) : skewing outer inner factors computations =
      .ok ⟨.skewing, layOut [outer, inner] [factors.1, factors.2], computations⟩ := by
  have hloops : [outer, inner].length = Kind.skewing.loopCount := rfl
  have hfactors : [factors.1, factors.2].length = Kind.skewing.arity - Kind.skewing.loopCount := rfl
  have hmade := make_eq hloops [factors.1, factors.2] computations
  rw [if_neg (not_not.2 hfactors), if_neg hne] at hmade
  exact hmade

/-- The factors of a skewing may be found by the oracle or given beforehand: it is
the same skewing.

For every candidate, a loop and one inside it, and after any schedule: without
work inside the outer loop the oracle is not asked and the candidate refused.
Otherwise it is asked once, about the schedule, the two levels and all that is
inside the outer loop.  If it answers with factors, there is an action, the one
that the candidate makes with these factors; if it has none, this is reported
with the two levels; and if it fails, so does the skewing, in the same way. -/
theorem solvedSkewing_agrees {program : Program} (h : program.forest.Reachable) :
    let t := program.forest
    ∃ found, Kind.skewing.candidates t = .ok found ∧
      ∀ root pairs, found.get? root = some pairs → ∀ pair ∈ pairs, ∃ p c n work,
        pair = [p, c] ∧ t.node p = .ok n ∧ t.subtreeComputations p = .ok work ∧
        ∀ (oracle : Oracle) (asked : List Query) (schedule : List Action),
          let answer := oracle.solve asked program schedule (n.level, n.level + 1) work
          let after := asked ++ [.skewing program schedule (n.level, n.level + 1) work]
          (work = [] → solvedSkewing oracle asked program schedule p c =
            (.error (.noTargets Kind.skewing), asked)) ∧
          (work ≠ [] →
            (∀ f₁ f₂, answer = .ok (some (f₁, f₂)) →
              ∃ action, ofCandidate .skewing t [p, c] [f₁, f₂] = .ok action ∧
                solvedSkewing oracle asked program schedule p c = (.ok action, after)) ∧
            (answer = .ok none → solvedSkewing oracle asked program schedule p c =
              (.error (.unsolved n.level (n.level + 1)), after)) ∧
            ∀ e, answer = .error e →
              solvedSkewing oracle asked program schedule p c = (.error e, after)) := by
  intro t
  have hsound := h.sound
  have hlinked := hsound.toLinked
  obtain ⟨found, hfound, -, hoffers⟩ := hlinked.exists_candidates .skewing
  refine ⟨found, hfound, fun root pairs hget pair hpair => ?_⟩
  have hoffer := hoffers root pairs hget pair hpair
  obtain ⟨p, c, rfl, hpasses⟩ := hoffer.exists_passesTo (Or.inl rfl)
  obtain ⟨work, hwork⟩ := hlinked.exists_work_of_offers (by decide) hoffer
  obtain ⟨targets, hcollected⟩ := hsound.exists_collected hoffer
  obtain rfl := hcollected.targeted.eq_work (by decide) hwork
  obtain ⟨n, hn⟩ := exists_node_of_subtreeComputations (hwork p (by simp))
  have hknown := hlinked.skewingTargets_eq hpasses hn (hwork p (by simp))
  refine ⟨p, c, n, targets, rfl, node_eq hn, hwork p (by simp),
    fun oracle asked schedule => ⟨fun hnone => ?_, fun hsome => ?_⟩⟩
  · rw [solvedSkewing, hknown, if_pos hnone]
  · rw [if_neg hsome] at hknown
    simp only [solvedSkewing, hknown, Oracle.resolveFactors_eq]
    refine ⟨fun f₁ f₂ hanswer => ?_, fun hanswer => ?_, fun e hanswer => ?_⟩
    · have hfactors : [f₁, f₂].length = Kind.skewing.arity - Kind.skewing.loopCount := rfl
      have hmade := hcollected.ofCandidate_eq hoffer [f₁, f₂]
      rw [if_neg (not_not.2 hfactors), if_neg hsome] at hmade
      exact ⟨_, hmade, by simp only [hanswer, skewing_eq p c (f₁, f₂) hsome]⟩
    · simp only [hanswer]
    · simp only [hanswer]

/-- In `branching`, its loops `i` and `k` exchanged, the oracle is asked about `i`
and `l` at the levels 1 and 2, and for a second time it has no factors. -/
theorem branching_solvedSkewing :
    ∃ t u, ofTable .branching = .ok t ∧ t.interchange ⟨"i"⟩ ⟨"k"⟩ = .ok u ∧
      let program : Program := ⟨"branching", .branching, u⟩
      let oracle := Oracle.scripted [] (.ok true) [.ok (some (1, -2))] (.ok none)
      let query := Query.skewing program [] (1, 2) ["T"]
      (∃ action, ofCandidate .skewing u [⟨"i"⟩, ⟨"l"⟩] [1, -2] = .ok action ∧
        solvedSkewing oracle [] program [] ⟨"i"⟩ ⟨"l"⟩ = (.ok action, [query])) ∧
      solvedSkewing oracle [query] program [] ⟨"i"⟩ ⟨"l"⟩ =
        (.error (.unsolved 1 2), [query, query]) := by
  obtain ⟨t, u, ht, hu⟩ := exists_branching_exchanged
  obtain ⟨found, hfound, hagrees⟩ := @solvedSkewing_agrees
    ⟨"branching", .branching, u⟩ (.interchanged (.built ht) hu)
  obtain ⟨pairs, m, hpairs, hpair, hm, hlevel, htargets⟩ : ∃ pairs m,
      found.get? ⟨"k"⟩ = some pairs ∧ [⟨"i"⟩, ⟨"l"⟩] ∈ pairs ∧ u.node ⟨"i"⟩ = .ok m ∧
        m.level = 1 ∧ u.subtreeComputations ⟨"i"⟩ = .ok ["T"] := by
    cases ht
    cases hu
    cases hfound
    exact ⟨_, _, rfl, by decide +kernel, rfl, rfl, rfl⟩
  obtain ⟨p, c, n, work, hpc, hn, hwork, hasked⟩ := hagrees _ _ hpairs _ hpair
  cases hpc
  cases hm.symm.trans hn
  cases htargets.symm.trans hwork
  rw [hlevel] at hasked
  refine ⟨t, u, ht, hu, ?_, ?_⟩
  · exact ((hasked _ [] []).2 (by simp)).1 1 (-2) rfl
  · exact ((hasked _ _ []).2 (by simp)).2.1 rfl

end Action

end LoopNest
