import LoopNest.Proofs.Action.Levels
import LoopNest.Proofs.Forest.Upward

/-!
LoopNest.Proofs.Action.InterchangeLevels — the levels in calls for an
interchange.

All targets of an action are told the same two levels, those of its loops.  But
an interchange targets what is inside either loop, and a level leads back to a
loop from just those computations that are inside it (`Sound.foundAt_iff`).  So
the call for a target can be read back as a whole exactly if the second loop lies
inside the first and the target inside the second
(`Reachable.interchange_levels`).  Siblings lie at one level, and their calls
name this level twice.
-/

namespace LoopNest

namespace Forest

variable {t : Forest}

/-- A computation is among those inside a loop. -/
def ComputedIn (t : Forest) (c : String) (x : LoopId) : Prop :=
  ∃ work, t.subtreeComputations x = .ok work ∧ c ∈ work

theorem Linked.computedIn_iff (h : t.Linked) {c : String} {x : LoopId} {n : Node}
    (hn : t.nodes[x]? = some n) :
    t.ComputedIn c x ↔ c ∈ (t.inside x).flatMap t.computationsOf := by
  simp [ComputedIn, h.subtreeComputations_eq hn]

namespace Sound

/-- A loop that is named as the holder of a computation holds it. -/
theorem exists_holder (h : t.Sound) {c : String} {owner : Node}
    (howner : t.loopOf c none = .ok owner) :
    ∃ id : LoopId, t.nodes[id]? = some owner ∧ c ∈ owner.computations := by
  cases howned : t.owners[c]? with
  | none =>
    simp only [loopOf, howned] at howner
    cases howner
  | some id =>
    obtain ⟨n, hn, hc⟩ := h.owner_iff.1 howned
    rw [(h.loopOf_holder hn hc).1] at howner
    cases howner
    exact ⟨id, hn, hc⟩

/-- From its own level a loop is found around those computations only that are
inside it. -/
theorem foundAt_iff (h : t.Sound) {c : String} {x : LoopId} {n : Node}
    (hn : t.nodes[x]? = some n) : t.FoundAt c x n.level ↔ t.ComputedIn c x := by
  rw [h.toLinked.computedIn_iff hn]
  refine ⟨?_, h.foundAt hn⟩
  rintro ⟨owner, node, howner, hlevel, hfound, hid⟩
  obtain ⟨holder, hholder, hc⟩ := h.exists_holder howner
  obtain ⟨y, k, hk, hk', honly⟩ := h.exists_loopOf hholder hc hlevel
  rw [hfound] at hk'
  cases hk'
  obtain rfl : x = y := hid.symm.trans (h.id_eq hk)
  obtain ⟨-, hinside⟩ := (honly x n hn).2 rfl
  exact List.mem_flatMap.2 ⟨holder, hinside, mem_computationsOf.2 ⟨owner, hholder, hc⟩⟩

end Sound

/-- The levels of two loops to be interchanged differ if one is above the other,
and not if they are siblings. -/
theorem Offers.level_ne_iff (h : t.Linked) {a b : LoopId} {n m : Node}
    (hoffer : t.Offers .interchange [a, b]) (hn : t.nodes[a]? = some n)
    (hm : t.nodes[b]? = some m) : n.level ≠ m.level ↔ t.Above a b := by
  cases hoffer with
  | passing hkind _ => simp at hkind
  | siblings hsiblings =>
    have hsame := (h.level_eq_of_areSiblings hn hm hsiblings).2
    exact iff_of_false (fun hne => hne hsame)
      fun habove => h.not_areSiblings_of_above habove hsiblings
  | enclosing habove =>
    exact iff_of_true (Nat.ne_of_lt (h.level_lt_of_above hn hm habove)) habove

/-- A candidate for an interchange names two loops that are there. -/
theorem Offers.exists_pair {candidate : Candidate} (hoffer : t.Offers .interchange candidate) :
    ∃ a b n m, candidate = [a, b] ∧ t.nodes[a]? = some n ∧ t.nodes[b]? = some m := by
  cases hoffer with
  | loop hkind _ => cases hkind
  | passing hkind _ => simp at hkind
  | @siblings a b hsiblings =>
    obtain ⟨⟨n, hn⟩, m, hm⟩ := areSiblings_nodes hsiblings
    exact ⟨a, b, n, m, rfl, hn, hm⟩
  | @enclosing a b habove =>
    obtain ⟨⟨n, hn⟩, m, hm⟩ := habove.exists_nodes
    exact ⟨a, b, n, m, rfl, hn, hm⟩

/-- The action made from two loops to be interchanged: there are no factors, and
it targets what is inside either loop. -/
theorem Sound.interchange_made (h : t.Sound) {a b : LoopId} {n m : Node}
    (hoffer : t.Offers .interchange [a, b]) (hn : t.nodes[a]? = some n)
    (hm : t.nodes[b]? = some m) {factors : List Int64} {action : Action}
    (hmade : Action.ofCandidate .interchange t [a, b] factors = .ok action) :
    action.kind = .interchange ∧ action.params = [.loop a, .loop b] ∧
      ∀ c, c ∈ action.computations ↔ t.ComputedIn c a ∨ t.ComputedIn c b := by
  have hlinked := h.toLinked
  obtain ⟨targets, hcollected⟩ := h.exists_collected hoffer
  have htargets := hcollected.below
  rw [h.targetsBelow_pair hn hm] at htargets
  rw [hcollected.ofCandidate_eq hoffer] at hmade
  split at hmade
  · cases hmade
  · next hfactors =>
    obtain rfl : factors = [] := List.length_eq_zero_iff.1 (not_not.1 hfactors)
    split at hmade
    · cases hmade
    · cases hmade
      refine ⟨rfl, rfl, fun c => ?_⟩
      rw [hlinked.computedIn_iff hn, hlinked.computedIn_iff hm, ← Except.ok.inj htargets]
      simp only [List.mem_append, List.mem_filter, decide_eq_true_eq]
      tauto

/-- Two levels in a compiler call for an interchange, and what they lead back to.

Take a candidate for an interchange and an action made from it.  Its calls can be
written, and each target is told the levels of the two loops.  Such a level is
that of a loop around the target, and leads back to the loop of the action,
exactly if the target is inside this loop.  A target is inside one of the two at
least.  The levels differ exactly if the first loop is above the second.  So a
call has two different levels that lead back to both loops exactly if the first
loop is above the second and the target inside the second. -/
theorem Reachable.interchange_levels (h : t.Reachable) :
    ∃ found, Kind.interchange.candidates t = .ok found ∧
      ∀ root candidates, found.get? root = some candidates →
        ∀ candidate ∈ candidates, ∀ factors action,
          Action.ofCandidate .interchange t candidate factors = .ok action →
          ∃ a b first second, candidate = [a, b] ∧ action.params = [.loop a, .loop b] ∧
            t.levels [a, b] = .ok [first, second] ∧
            action.calls t = .ok (String.join (action.computations.map
              (Action.callLine .interchange [first.repr, second.repr]))) ∧
            (first ≠ second ↔ t.isAncestor a b = .ok true) ∧
            ∀ c ∈ action.computations,
              action.call t c
                = .ok (Action.callLine .interchange [first.repr, second.repr] c) ∧
              (t.FoundAt c a first ↔ t.ComputedIn c a) ∧
              (t.FoundAt c b second ↔ t.ComputedIn c b) ∧
              (t.ComputedIn c a ∨ t.ComputedIn c b) ∧
              (first ≠ second ∧ t.FoundAt c a first ∧ t.FoundAt c b second ↔
                t.isAncestor a b = .ok true ∧ t.ComputedIn c b) := by
  have hsound := h.sound
  have hlinked := hsound.toLinked
  obtain ⟨found, hfound, -, hoffers⟩ := hlinked.exists_candidates .interchange
  refine ⟨found, hfound, fun root candidates hget candidate hcandidate factors action hmade => ?_⟩
  have hoffer := hoffers root candidates hget candidate hcandidate
  obtain ⟨a, b, n, m, rfl, hn, hm⟩ := hoffer.exists_pair
  obtain ⟨hkind, hparams, htargets⟩ := hsound.interchange_made hoffer hn hm hmade
  have hdiffer := hoffer.level_ne_iff hlinked hn hm
  have hplaced : action.Placed t := by
    intro x hx
    rw [Action.mem_loops, hparams] at hx
    obtain rfl | rfl : x = a ∨ x = b := by simpa using hx
    · exact contains_eq_true_iff.2 ⟨n, hn⟩
    · exact contains_eq_true_iff.2 ⟨m, hm⟩
  have hnumbers : action.numbers t = [n.level.repr, m.level.repr] := by
    rw [Action.numbers, hparams]
    simp only [List.map_cons, List.map_nil, Param.number, levelAt, hn, hm]
    rfl
  have hcall := hplaced.call_eq
  have hcalls := hplaced.calls_eq_join
  rw [hkind, hnumbers] at hcalls
  simp only [hkind, hnumbers] at hcall
  refine ⟨a, b, n.level, m.level, rfl, hparams, ?_, hcalls, hdiffer, fun c hc =>
    ⟨hcall c, hsound.foundAt_iff hn, hsound.foundAt_iff hm, (htargets c).1 hc, ?_⟩⟩
  · simp only [levels, node_eq hn, node_eq hm, ok_bind]
    rfl
  · rw [hsound.foundAt_iff hn, hsound.foundAt_iff hm, hdiffer]
    refine and_congr_right fun habove => and_iff_right_of_imp fun hb => ?_
    rw [hlinked.computedIn_iff hm] at hb
    exact (hlinked.computedIn_iff hn).2 (hlinked.work_subset_of_above habove hb)

/-- In `branching`, its loops `i` and `k` exchanged, the calls to interchange `k`
and `l` go to `S` and `T`.  Around `T` the two levels are those of `k` and `l`; `S`
is not inside `l`, and the second level does not lead there from it. -/
theorem branching_interchange_levels :
    ∃ t u, ofTable .branching = .ok t ∧ t.interchange ⟨"i"⟩ ⟨"k"⟩ = .ok u ∧
      ∃ action, Action.ofCandidate .interchange u [⟨"k"⟩, ⟨"l"⟩] [] = .ok action ∧
        action.calls u = .ok "\n\tS.interchange(0, 2);\n\tT.interchange(0, 2);" ∧
        u.FoundAt "T" ⟨"k"⟩ 0 ∧ u.FoundAt "T" ⟨"l"⟩ 2 ∧ ¬ u.FoundAt "S" ⟨"l"⟩ 2 := by
  obtain ⟨t, u, ht, hu⟩ := exists_branching_exchanged
  obtain ⟨found, hfound, hlevels⟩ := Reachable.interchange_levels (.interchanged (.built ht) hu)
  obtain ⟨candidates, hcandidates, hpair⟩ : ∃ candidates,
      found.get? ⟨"k"⟩ = some candidates ∧ [⟨"k"⟩, ⟨"l"⟩] ∈ candidates := by
    cases ht
    cases hu
    cases hfound
    exact ⟨_, rfl, by decide +kernel⟩
  obtain ⟨action, hmade, hcalls, hS, hT⟩ : ∃ action,
      Action.ofCandidate .interchange u [⟨"k"⟩, ⟨"l"⟩] [] = .ok action ∧
      action.calls u = .ok "\n\tS.interchange(0, 2);\n\tT.interchange(0, 2);" ∧
      "S" ∈ action.computations ∧ "T" ∈ action.computations := by
    cases ht
    cases hu
    exact ⟨_, rfl, by decide +kernel, by decide +kernel, by decide +kernel⟩
  obtain ⟨hread, hbelow, hinner⟩ : u.levels [⟨"k"⟩, ⟨"l"⟩] = .ok [0, 2] ∧
      u.isAncestor ⟨"k"⟩ ⟨"l"⟩ = .ok true ∧ u.subtreeComputations ⟨"l"⟩ = .ok ["T"] := by
    cases ht
    cases hu
    exact ⟨rfl, rfl, rfl⟩
  obtain ⟨a, b, first, second, heq, -, hab, -, -, htargets⟩ :=
    hlevels _ _ hcandidates _ hpair _ _ hmade
  cases heq
  rw [hread] at hab
  cases hab
  obtain ⟨-, -, hfoundS, -⟩ := htargets "S" hS
  obtain ⟨-, -, -, -, hboth⟩ := htargets "T" hT
  obtain ⟨-, hk, hl⟩ := hboth.2 ⟨hbelow, ["T"], hinner, by simp⟩
  refine ⟨t, u, ht, hu, action, hmade, hcalls, hk, hl, fun hfalse => ?_⟩
  obtain ⟨work, hwork, hmem⟩ := hfoundS.1 hfalse
  rw [hinner] at hwork
  cases hwork
  simp at hmem

/-- So not all calls for an interchange can be read back: in `branching` the call
of `S` to interchange `i` and `l` names a level deeper than the loop that holds
`S`. -/
theorem interchange_levels_not_all_found :
    ¬ ∀ t : Forest, t.Reachable → ∀ found, Kind.interchange.candidates t = .ok found →
      ∀ root candidates, found.get? root = some candidates →
      ∀ a b : LoopId, [a, b] ∈ candidates → ∀ factors action,
        Action.ofCandidate .interchange t [a, b] factors = .ok action →
      ∀ first second, t.levels [a, b] = .ok [first, second] →
      ∀ c ∈ action.computations,
        first ≠ second ∧ t.FoundAt c a first ∧ t.FoundAt c b second := by
  intro hclaim
  obtain ⟨t, found, ht, hfound⟩ : ∃ t found, ofTable .branching = .ok t ∧
      Kind.interchange.candidates t = .ok found := ⟨_, _, rfl, rfl⟩
  obtain ⟨candidates, hcandidates, hpair⟩ : ∃ candidates,
      found.get? ⟨"i"⟩ = some candidates ∧ [⟨"i"⟩, ⟨"l"⟩] ∈ candidates := by
    cases ht
    cases hfound
    exact ⟨_, rfl, by decide +kernel⟩
  obtain ⟨action, holder, hmade, hS, hread, hholder, hlevel⟩ : ∃ action holder,
      Action.ofCandidate .interchange t [⟨"i"⟩, ⟨"l"⟩] [] = .ok action ∧
      "S" ∈ action.computations ∧ t.levels [⟨"i"⟩, ⟨"l"⟩] = .ok [0, 2] ∧
      t.loopOf "S" none = .ok holder ∧ holder.level = 1 := by
    cases ht
    exact ⟨_, _, rfl, by decide +kernel, rfl, rfl, rfl⟩
  obtain ⟨-, -, owner, -, howner, hdeep, -⟩ := hclaim t (.built ht) found hfound ⟨"i"⟩ candidates
    hcandidates ⟨"i"⟩ ⟨"l"⟩ hpair [] action hmade 0 2 hread "S" hS
  rw [hholder] at howner
  cases howner
  omega

end Forest

end LoopNest
