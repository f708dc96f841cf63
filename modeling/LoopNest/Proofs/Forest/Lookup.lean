import LoopNest.Proofs.Forest.Ancestry
import LoopNest.Proofs.Forest.Walks

/-!
LoopNest.Proofs.Forest.Lookup — how computations are found.

Each computation of a sound forest has one owner, one place in canonical
order and, at every level down to its owner, one loop around it.  The
indices answer for the first two.  The third is found by climbing from the
owner, which stops at the one loop of that level that the owner is inside.

* `Sound.rank?_eq`, `Sound.pairwise_rank` — ranks are positions;
* `Linked.climbToLevel_eq`, `Sound.loopOf_eq` — the loop at a level;
* `Sound.root_unique` — loops below different roots share no computation.
-/

namespace LoopNest

namespace Forest

variable {t : Forest}

/-! ## Ranks -/

theorem getElem?_rankFrom {c : String} : ∀ (names : List String) (next : Nat)
    (ranks : NameMap Nat), names.Nodup →
    (rankFrom next ranks names)[c]? =
      if c ∈ names then some (next + names.idxOf c) else ranks[c]?
  | [], _, _, _ => by simp [rankFrom]
  | d :: rest, next, ranks, hnd => by
      obtain ⟨hd, hrest⟩ := List.nodup_cons.1 hnd
      rw [rankFrom, getElem?_rankFrom rest _ _ hrest, Std.ExtTreeMap.getElem?_insert]
      by_cases hdc : d = c
      · subst hdc
        simp [hd]
      · have hcd : c ≠ d := fun e => hdc e.symm
        simp only [Std.LawfulEqOrd.compare_eq_iff_eq, hdc, if_false, List.mem_cons, hcd, false_or,
          List.idxOf_cons_ne _ hdc]
        split
        · congr 1
          omega
        · rfl

namespace Sound

theorem nodup_computations (h : t.Sound) : t.computations.Nodup := by
  obtain ⟨hcomputations, hclaim, -⟩ := h.indices_eq
  rw [hcomputations, ← map_snd_held]
  exact ((claim_eq_ok_iff _ ∅).1 ⟨_, hclaim⟩).1

/-- The rank of a computation is its position, counted from one. -/
theorem rank?_eq (h : t.Sound) (c : String) :
    t.rank? c = if c ∈ t.computations then some (1 + t.computations.idxOf c) else none := by
  rw [rank?, h.indices_eq.2.2, getElem?_rankFrom _ _ _ h.nodup_computations]
  simp

theorem mem_computations_iff (h : t.Sound) {c : String} :
    c ∈ t.computations ↔ ∃ id, t.owners[c]? = some id := by
  rw [h.indices_eq.1, List.mem_flatMap]
  constructor
  · rintro ⟨id, -, hc⟩
    exact ⟨id, h.owner_iff.2 (mem_computationsOf.1 hc)⟩
  · rintro ⟨id, hid⟩
    obtain ⟨n, hn, hc⟩ := h.owner_iff.1 hid
    exact ⟨id, h.toLinked.mem_listing.2 ⟨n, hn⟩, mem_computationsOf.2 ⟨n, hn, hc⟩⟩

/-- Computations are listed by increasing rank. -/
theorem pairwise_rank (h : t.Sound) : t.computations.Pairwise fun c d =>
    ∃ i j, t.rank? c = some i ∧ t.rank? d = some j ∧ i < j := by
  rw [List.pairwise_iff_getElem]
  intro i j hi hj hij
  refine ⟨1 + i, 1 + j, ?_, ?_, by omega⟩
  · rw [h.rank?_eq, if_pos (List.getElem_mem hi), h.nodup_computations.idxOf_getElem]
  · rw [h.rank?_eq, if_pos (List.getElem_mem hj), h.nodup_computations.idxOf_getElem]

end Sound

/-! ## Loops around a computation -/

namespace Linked

theorem mem_inside_trans (h : t.Linked) {a b x : LoopId} {n m k : Node}
    (hn : t.nodes[a]? = some n) (hm : t.nodes[b]? = some m) (hk : t.nodes[x]? = some k)
    (hba : b ∈ t.inside a) (hxb : x ∈ t.inside b) : x ∈ t.inside a := by
  revert hxb
  refine h.fromRoots (motive := fun x => x ∈ t.inside b → x ∈ t.inside a) ?_ ?_ hk
  · intro x k hk hp hxb
    simp only [h.mem_inside_iff hm hk, hp, reduceCtorEq, false_and, exists_false, or_false] at hxb
    rw [hxb]
    exact hba
  · intro x k p q hk hp hq ih hxb
    simp only [h.mem_inside_iff hm hk, hp, Option.some.injEq, exists_eq_left'] at hxb
    rcases hxb with rfl | hpb
    · exact hba
    · exact (h.mem_inside_iff hn hk).2 (Or.inr ⟨p, hp, ih hpb⟩)

/-- The root above a loop is one that the loop is inside. -/
theorem mem_inside_of_rootOf (h : t.Linked) {id root : LoopId} {n : Node}
    (hn : t.nodes[id]? = some n) (hroot : t.rootOf id = .ok root) :
    root ∈ t.roots ∧ id ∈ t.inside root := by
  obtain ⟨r, hr, hid⟩ := List.mem_flatMap.1 (h.mem_listing.2 ⟨n, hn⟩)
  rw [h.rootOf_eq hr hid] at hroot
  cases hroot
  exact ⟨hr, hid⟩

end Linked

/-- Climbing stops at the level asked for. -/
theorem climbToLevel_of_le {level fuel : Nat} {n : Node} (hl : n.level ≤ level) :
    t.climbToLevel level fuel n = .ok n := by
  rw [climbToLevel.eq_def]
  simp only [if_pos hl]

theorem climbToLevel_succ {level fuel : Nat} {n m : Node} {p : LoopId} (hl : level < n.level)
    (hp : n.parent = some p) (hm : t.nodes[p]? = some m) :
    t.climbToLevel level (fuel + 1) n = t.climbToLevel level fuel m := by
  rw [climbToLevel.eq_def]
  simp only [if_neg (Nat.not_le.2 hl), hp, node_eq hm, ok_bind]

namespace Linked

/-- Climbing from inside a loop to its level ends at the loop. -/
theorem climbToLevel_eq (h : t.Linked) {x : LoopId} {n : Node} (hn : t.nodes[x]? = some n) :
    ∀ (fuel : Nat) {id : LoopId} {m : Node}, t.nodes[id]? = some m → m.level ≤ n.level + fuel →
      id ∈ t.inside x → t.climbToLevel n.level fuel m = .ok n
  | fuel, id, m, hm, hl, hid => by
      rcases Nat.lt_or_ge n.level m.level with hlt | hge
      · obtain ⟨fuel, rfl⟩ : ∃ rest, fuel = rest + 1 := ⟨fuel - 1, by omega⟩
        rcases (h.mem_inside_iff hn hm).1 hid with rfl | ⟨p, hp, hpx⟩
        · rw [hn] at hm
          cases hm
          exact absurd hlt (Nat.lt_irrefl _)
        · obtain ⟨k, hk, -, hlk⟩ := h.above hm hp
          rw [climbToLevel_succ hlt hp hk]
          exact climbToLevel_eq h hn fuel hk (by omega) hpx
      · -- at the level of `x` there is nothing inside it but `x`
        have hle := h.level_le_of_mem_inside hn hm hid
        obtain rfl := h.eq_of_mem_inside hn hm (by omega) hm hid (h.self_mem_inside hm)
        rw [hn] at hm
        cases hm
        exact climbToLevel_of_le (Nat.le_refl _)

end Linked

namespace Sound

/-- A computation inside a loop is found back to the loop by the loop's
level. -/
theorem loopOf_eq (h : t.Sound) {x : LoopId} {n : Node} (hn : t.nodes[x]? = some n) {c : String}
    (hc : c ∈ (t.inside x).flatMap t.computationsOf) : t.loopOf c (some n.level) = .ok n := by
  obtain ⟨owner, hinside, hc⟩ := List.mem_flatMap.1 hc
  obtain ⟨m, hm, hcm⟩ := mem_computationsOf.1 hc
  have howner : t.owners[c]? = some owner := h.owner_iff.2 ⟨m, hm, hcm⟩
  have hle := h.toLinked.level_le_of_mem_inside hn hm hinside
  rw [loopOf, howner]
  simp only [node_eq hm, ok_bind, if_neg (Nat.not_lt.2 hle)]
  have hsize := h.toLinked.level_lt_size hm
  exact h.toLinked.climbToLevel_eq hn t.size hm (by omega) hinside

/-- Two loops with a computation in common have one root. -/
theorem root_unique (h : t.Sound) {a b r q : LoopId} (hr : r ∈ t.roots) (hq : q ∈ t.roots)
    (ha : a ∈ t.inside r) (hb : b ∈ t.inside q) {c : String}
    (hca : c ∈ (t.inside a).flatMap t.computationsOf)
    (hcb : c ∈ (t.inside b).flatMap t.computationsOf) : r = q := by
  have hlinked := h.toLinked
  obtain ⟨n, hn, -, hnl⟩ := hlinked.exists_node_of_mem_roots hr
  obtain ⟨m, hm, -, hml⟩ := hlinked.exists_node_of_mem_roots hq
  obtain ⟨na, hna⟩ := hlinked.exists_node_of_mem_inside hn ha
  obtain ⟨nb, hnb⟩ := hlinked.exists_node_of_mem_inside hm hb
  obtain ⟨x, hxa, hcx⟩ := List.mem_flatMap.1 hca
  obtain ⟨y, hyb, hcy⟩ := List.mem_flatMap.1 hcb
  -- both loops around the computation are its one owner
  have howner := (h.owner_iff.2 (mem_computationsOf.1 hcx)).symm.trans
    (h.owner_iff.2 (mem_computationsOf.1 hcy))
  cases howner
  obtain ⟨k, hk⟩ := hlinked.exists_node_of_mem_inside hna hxa
  exact hlinked.eq_of_mem_inside hn hm (hnl.trans hml.symm) hk
    (hlinked.mem_inside_trans hn hna hk ha hxa) (hlinked.mem_inside_trans hm hnb hk hb hyb)

end Sound

end Forest

end LoopNest
