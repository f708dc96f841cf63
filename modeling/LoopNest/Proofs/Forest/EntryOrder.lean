import LoopNest.Proofs.Forest.Reachable

/-!
LoopNest.Proofs.Forest.EntryOrder — what the order of entries decides.

An annotation may list its loops in any order.  The construction goes
through them entry by entry, gives levels breadth first and lists
computations along a walk, yet all that it makes of a table can be said of
look-ups in it, the roots excepted: these are taken in table order.  So two
tables with the same entries are accepted alike (`WellFormed.of_perm`) and
give the same loops at the same places (`nodes_eq_of_perm`), and if their
roots stand in one order they give one forest (`ofTable_entry_order`).
-/

namespace LoopNest

/-- A look-up does not depend on the order of keys. -/
theorem OrderedMap.get?_eq_of_perm {κ α : Type} [DecidableEq κ] {m k : OrderedMap κ α}
    (h : m.entries.Perm k.entries) (key : κ) : m.get? key = k.get? key :=
  Option.ext fun v => by rw [get?_eq_some_iff, get?_eq_some_iff, h.mem_iff]

namespace Table

variable {a b : Table}

theorem Depth.congr (h : ∀ id, a.loops.get? id = b.loops.get? id) {id : LoopId} {d : Nat}
    (hd : a.Depth id d) : b.Depth id d := by
  induction hd with
  | root hid hp => exact .root ((h _).symm.trans hid) hp
  | inner hid hp _ ih => exact .inner ((h _).symm.trans hid) hp ih

theorem Agrees.congr (h : ∀ id, a.loops.get? id = b.loops.get? id) (ha : a.Agrees) :
    b.Agrees := by
  constructor
  · intro id parent entry hid hp
    rw [← h] at hid ⊢
    exact ha.parent_lists hid hp
  · intro id child entry hid hc
    rw [← h] at hid ⊢
    exact ha.child_names hid hc
  · intro id entry hid
    rw [← h] at hid
    exact ha.children_nodup hid

/-- A table stays well formed when its entries change places. -/
theorem WellFormed.of_perm (h : a.loops.entries.Perm b.loops.entries) (ha : a.WellFormed) :
    b.WellFormed where
  toAgrees := ha.toAgrees.congr (OrderedMap.get?_eq_of_perm h)
  grounded := by
    intro id entry hid
    rw [← OrderedMap.get?_eq_of_perm h] at hid
    exact (ha.grounded hid).imp fun _ hd => hd.congr (OrderedMap.get?_eq_of_perm h)
  computations_nodup := (h.flatMap_right _).nodup_iff.1 ha.computations_nodup

theorem roots_perm (h : a.loops.entries.Perm b.loops.entries) : a.roots.Perm b.roots :=
  (h.filter _).map _

end Table

namespace Forest

variable {t u : Forest} {a b : Table}

/-- The loops stand at the same places, with the same levels. -/
theorem nodes_eq_of_perm (h : a.loops.entries.Perm b.loops.entries) (ht : ofTable a = .ok t)
    (hu : ofTable b = .ok u) : t.nodes = u.nodes := by
  have hget := OrderedMap.get?_eq_of_perm h
  rw [nodes_of_ofTable ht, nodes_of_ofTable hu]
  refine nodes_ext fun id n => ?_
  rw [Table.nodes_rooted, Table.nodes_rooted]
  constructor
  · rintro ⟨entry, d, hid, hd, rfl⟩
    exact ⟨entry, d, (hget id).symm.trans hid, hd.congr hget, rfl⟩
  · rintro ⟨entry, d, hid, hd, rfl⟩
    exact ⟨entry, d, (hget id).trans hid, hd.congr fun x => (hget x).symm, rfl⟩

/-- The computations of a sound forest, in the order of ids. -/
theorem Sound.computations_perm_keys (h : t.Sound) :
    t.computations.Perm (t.nodes.keys.flatMap t.computationsOf) := by
  rw [h.indices_eq.1]
  exact h.toLinked.listing_perm_keys.flatMap_right _

/-- Two tables with the same entries are both accepted or both refused.  If
they are accepted, the forests have the same loops at the same places with
the same owners, and their roots and computations are the same in some
order; if the roots stand in one order, the two forests are one. -/
theorem ofTable_entry_order (h : a.loops.entries.Perm b.loops.entries) :
    ((∃ t, ofTable a = .ok t) ↔ ∃ u, ofTable b = .ok u) ∧
    ∀ t u, ofTable a = .ok t → ofTable b = .ok u →
      (a.roots = b.roots → t = u) ∧
      t.nodes = u.nodes ∧ t.owners = u.owners ∧
        t.roots.Perm u.roots ∧ t.computations.Perm u.computations := by
  constructor
  · constructor
    · rintro ⟨t, ht⟩
      exact exists_ofTable ((wellFormed_of_ofTable ht).of_perm h)
    · rintro ⟨u, hu⟩
      exact exists_ofTable ((wellFormed_of_ofTable hu).of_perm h.symm)
  · intro t u ht hu
    obtain ⟨htsound, htdescribes⟩ := sound_of_ofTable ht
    obtain ⟨husound, hudescribes⟩ := sound_of_ofTable hu
    have hnodes := nodes_eq_of_perm h ht hu
    refine ⟨fun hroots => ?_, hnodes, ?_, ?_, ?_⟩
    · -- the second table describes the first forest too
      have hdescribes : b.Describes t :=
        ⟨hroots.symm.trans htdescribes.roots_eq, fun id =>
          (OrderedMap.get?_eq_of_perm h id).symm.trans (htdescribes.get?_eq id)⟩
      exact Except.ok.inj ((htsound.ofTable_eq hdescribes).symm.trans hu)
    · refine Std.ExtTreeMap.ext_getElem? fun c => Option.ext fun id => ?_
      rw [htsound.owner_iff, husound.owner_iff, hnodes]
    · rw [← htdescribes.roots_eq, ← hudescribes.roots_eq]
      exact Table.roots_perm h
    · have hcomputations : t.computationsOf = u.computationsOf := by
        funext id
        rw [computationsOf, computationsOf, hnodes]
      refine htsound.computations_perm_keys.trans ?_
      rw [hnodes, hcomputations]
      exact husound.computations_perm_keys.symm

/-- `branching` with its inner loops before the outer one is the same
forest. -/
theorem branching_entry_order :
    let reversed : Table := ⟨.ofList Table.branching.loops.entries.reverse⟩
    reversed.loops.entries ≠ Table.branching.loops.entries ∧
      ∃ t, ofTable .branching = .ok t ∧ ofTable reversed = .ok t := by
  intro reversed
  have hperm : Table.branching.loops.entries.Perm reversed.loops.entries :=
    (List.reverse_perm _).symm
  obtain ⟨t, ht⟩ : ∃ t, ofTable .branching = .ok t := ⟨_, rfl⟩
  obtain ⟨haccepted, hequal⟩ := ofTable_entry_order hperm
  obtain ⟨u, hu⟩ := haccepted.1 ⟨t, ht⟩
  have htu : t = u := (hequal t u ht hu).1 (by decide +kernel)
  exact ⟨by decide +kernel, t, ht, htu ▸ hu⟩

end Forest

end LoopNest
