import LoopNest.Proofs.Action.Targets

/-!
LoopNest.Proofs.Action.Levels — the levels in a compiler call.

The compiler is told a computation and some levels, and no loop.  A level leads
back to the loop that was meant if the computation lies inside this loop, for
then the loop is the one around the computation at its own level
(`Sound.foundAt`, `Sound.leadsBack`).

Of the loops of a candidate that is no pair to interchange all have the same
work inside (`Linked.exists_work_of_offers`).  So whatever an action made from it
targets lies inside every loop of the action, and the calls can be read back
(`Reachable.levels_lead_back`).
-/

namespace LoopNest

open Forest

/-- What is written for a parameter in the call for a computation tells the
parameter.  A factor is written as it is.  For a loop a level is written, no
deeper than the loop that holds the computation, and at this level around the
computation there is the loop. -/
inductive Param.LeadsBack (t : Forest) (c : String) : Param → String → Prop
  | loop {x : LoopId} {level : Nat} {owner node : Node} (howner : t.loopOf c none = .ok owner)
      (hlevel : level ≤ owner.level) (hfound : t.loopOf c (some level) = .ok node)
      (hid : node.id = x) : LeadsBack t c (.loop x) level.repr
  | factor (value : Int64) : LeadsBack t c (.factor value) value.toInt.repr

namespace Forest

variable {t : Forest}

/-- Around a computation, at a level no deeper than the loop that holds it, there
is this loop. -/
def FoundAt (t : Forest) (c : String) (x : LoopId) (level : Nat) : Prop :=
  ∃ owner node, t.loopOf c none = .ok owner ∧ level ≤ owner.level ∧
    t.loopOf c (some level) = .ok node ∧ node.id = x

/-- A loop is found at its own level around all that is computed inside it. -/
theorem Sound.foundAt (h : t.Sound) {x : LoopId} {n : Node} (hn : t.nodes[x]? = some n)
    {c : String} (hc : c ∈ (t.inside x).flatMap t.computationsOf) : t.FoundAt c x n.level := by
  obtain ⟨owner, hinside, howned⟩ := List.mem_flatMap.1 hc
  obtain ⟨m, hm, hcm⟩ := mem_computationsOf.1 howned
  have howner : t.loopOf c none = .ok m := by
    simp only [loopOf, h.owner_iff.2 ⟨m, hm, hcm⟩, node_eq hm, ok_bind]
    rfl
  exact ⟨m, n, howner, h.toLinked.level_le_of_mem_inside hn hm hinside, h.loopOf_eq hn hc,
    h.id_eq hn⟩

/-- So it is found back from the number that is written for it. -/
theorem Sound.leadsBack (h : t.Sound) {x : LoopId} {work : List String}
    (hwork : t.subtreeComputations x = .ok work) {c : String} (hc : c ∈ work) :
    Param.LeadsBack t c (.loop x) ((Param.loop x).number t).repr := by
  obtain ⟨n, hn⟩ := exists_node_of_subtreeComputations hwork
  rw [h.toLinked.subtreeComputations_eq hn] at hwork
  cases hwork
  obtain ⟨owner, node, howner, hlevel, hfound, hid⟩ := h.foundAt hn hc
  have hnumber : ((Param.loop x).number t).repr = n.level.repr := by
    rw [Param.number, levelAt, hn]
    rfl
  rw [hnumber]
  exact .loop howner hlevel hfound hid

end Forest

namespace Action

variable {t : Forest} {a : Action}

/-- If every loop of an action has a computation inside, the call for the
computation tells the parameters of the action. -/
theorem forall₂_leadsBack (h : t.Sound) {c : String}
    (hinside : ∀ x ∈ a.loops, ∃ work, t.subtreeComputations x = .ok work ∧ c ∈ work) :
    List.Forall₂ (Param.LeadsBack t c) a.params (a.numbers t) := by
  rw [numbers, List.forall₂_map_right_iff, List.forall₂_same]
  intro p hp
  cases p with
  | factor value => exact .factor value
  | loop x =>
    obtain ⟨work, hwork, hc⟩ := hinside x (mem_loops.2 hp)
    exact h.leadsBack hwork hc

end Action

namespace Forest

variable {t : Forest}

/-- The levels in compiler calls lead back to the loops that were meant.

Take any kind but interchange, a candidate of it and an action made from the
candidate.  Its calls can be written, one for each target.  In the call for a
target every loop of the action stands as a level no deeper than the loop that
holds the target, and the loop around the target at this level is the loop of
the action; factors stand as they are. -/
theorem Reachable.levels_lead_back (h : t.Reachable) {kind : Kind} (hkind : kind ≠ .interchange) :
    ∃ found, kind.candidates t = .ok found ∧
      ∀ root candidates, found.get? root = some candidates →
        ∀ candidate ∈ candidates, ∀ factors action,
          Action.ofCandidate kind t candidate factors = .ok action →
          ∃ texts : List String,
            action.calls t
              = .ok (String.join (action.computations.map (Action.callLine kind texts))) ∧
            ∀ c ∈ action.computations,
              action.call t c = .ok (Action.callLine kind texts c) ∧
              List.Forall₂ (Param.LeadsBack t c) action.params texts := by
  have hsound := h.sound
  obtain ⟨found, hfound, -, hoffers⟩ := hsound.toLinked.exists_candidates kind
  refine ⟨found, hfound, fun root candidates hget candidate hcandidate factors action hmade => ?_⟩
  have hoffer := hoffers root candidates hget candidate hcandidate
  obtain ⟨targets, hcollected⟩ := hsound.exists_collected hoffer
  obtain ⟨work, hwork⟩ := hsound.toLinked.exists_work_of_offers hkind hoffer
  obtain rfl := hcollected.targeted.eq_work hkind hwork
  obtain rfl := hcollected.eq_of_ofCandidate hoffer hmade
  have hloops : ∀ x ∈ (⟨kind, Action.layOut candidate factors, targets⟩ : Action).loops,
      t.subtreeComputations x = .ok targets := by
    rw [Action.loops_layOut]
    exact hwork
  have hplaced : (⟨kind, Action.layOut candidate factors, targets⟩ : Action).Placed t :=
    fun x hx => contains_eq_true_iff.2 (exists_node_of_subtreeComputations (hloops x hx))
  exact ⟨_, hplaced.calls_eq_join, fun c hc => ⟨hplaced.call_eq c,
    Action.forall₂_leadsBack hsound fun x hx => ⟨targets, hloops x hx, hc⟩⟩⟩

/-- In `branching`, its loops `i` and `k` exchanged, the tiling of `i` and `l` is
written with the levels 1 and 2, and at these levels around `T` there are `i`
and `l`. -/
theorem branching_levels_lead_back :
    ∃ t u, ofTable .branching = .ok t ∧ t.interchange ⟨"i"⟩ ⟨"k"⟩ = .ok u ∧
      ∃ action texts, Action.ofCandidate .tiling2d u [⟨"i"⟩, ⟨"l"⟩] [32, -8] = .ok action ∧
        action.calls u = .ok "\n\tT.tile(1, 2, 32, -8);" ∧
        List.Forall₂ (Param.LeadsBack u "T")
          [.loop ⟨"i"⟩, .loop ⟨"l"⟩, .factor 32, .factor (-8)] texts := by
  obtain ⟨t, u, ht, hu⟩ := exists_branching_exchanged
  obtain ⟨found, hfound, hback⟩ :=
    Reachable.levels_lead_back (.interchanged (.built ht) hu)
      (by decide : Kind.tiling2d ≠ .interchange)
  obtain ⟨candidates, hcandidates, hpair⟩ : ∃ candidates,
      found.get? ⟨"k"⟩ = some candidates ∧ [⟨"i"⟩, ⟨"l"⟩] ∈ candidates := by
    cases ht
    cases hu
    cases hfound
    exact ⟨_, rfl, by decide +kernel⟩
  obtain ⟨action, hmade, hcalls, hparams, htargets⟩ : ∃ action,
      Action.ofCandidate .tiling2d u [⟨"i"⟩, ⟨"l"⟩] [32, -8] = .ok action ∧
      action.calls u = .ok "\n\tT.tile(1, 2, 32, -8);" ∧
      action.params = [.loop ⟨"i"⟩, .loop ⟨"l"⟩, .factor 32, .factor (-8)] ∧
      "T" ∈ action.computations := by
    cases ht
    cases hu
    exact ⟨_, rfl, by decide +kernel, rfl, by decide +kernel⟩
  obtain ⟨texts, -, htexts⟩ := hback _ _ hcandidates _ hpair _ _ hmade
  exact ⟨t, u, ht, hu, action, texts, hmade, hcalls, hparams ▸ (htexts _ htargets).2⟩

end Forest

end LoopNest
