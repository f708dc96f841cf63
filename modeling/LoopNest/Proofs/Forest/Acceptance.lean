import LoopNest.Proofs.Forest.Settling

/-!
LoopNest.Proofs.Forest.Acceptance — tables and sound forests.

The construction tests a table piece by piece: entry against entry, then
what the breadth-first pass has reached against the table, then names along
a pre-order walk.  Together the three tests accept exactly the well-formed
tables (`accepted_iff_wellFormed`).  An accepted table becomes a sound
forest that it describes (`sound_of_ofTable`), and a sound forest is made
again from every table that describes it (`Sound.ofTable_eq`).
-/

namespace LoopNest

namespace Forest

variable {t : Forest} {a : Table}

/-- The indices of a linked forest can be made exactly if no computation is
held twice. -/
theorem Linked.indexed_ok_iff (h : t.Linked) :
    (∃ u, t.indexed = .ok u) ↔ (t.listing.flatMap t.computationsOf).Nodup := by
  have hclaim := claim_eq_ok_iff (t.held t.listing) ∅
  simp only [Std.ExtTreeMap.getElem?_empty, implies_true, and_true, map_snd_held] at hclaim
  rw [h.indexed_eq, ← hclaim]
  constructor
  · rintro ⟨u, hu⟩
    obtain ⟨owners, howners, -⟩ := bind_eq_ok.1 hu
    exact ⟨owners, howners⟩
  · rintro ⟨owners, howners⟩
    rw [howners]
    exact ⟨_, rfl⟩

/-- If a forest holds the entries of a table and every loop of the table, its
listing is an arrangement of the table. -/
theorem Linked.listing_perm (h : t.Linked)
    (hentry : ∀ {id : LoopId} {n : Node}, t.nodes[id]? = some n →
      a.loops.get? id = some n.entry)
    (hall : ∀ id ∈ a.loops.keys, ∃ n, t.nodes[id]? = some n) :
    t.listing.Perm a.loops.keys := by
  refine (List.perm_ext_iff_of_nodup h.nodup_listing a.loops.nodup_keys).2 fun id => ?_
  rw [h.mem_listing]
  constructor
  · rintro ⟨n, hn⟩
    exact OrderedMap.mem_keys.2 ⟨n.entry, hentry hn⟩
  · exact hall id

/-- Then it holds the computations of the table, in another order. -/
theorem Linked.computations_perm (h : t.Linked)
    (hentry : ∀ {id : LoopId} {n : Node}, t.nodes[id]? = some n →
      a.loops.get? id = some n.entry)
    (hall : ∀ id ∈ a.loops.keys, ∃ n, t.nodes[id]? = some n) :
    (t.listing.flatMap t.computationsOf).Perm
      (a.loops.entries.flatMap fun row => row.2.computations) := by
  have hkeys : a.loops.keys.flatMap t.computationsOf
      = a.loops.entries.flatMap fun row => row.2.computations := by
    rw [OrderedMap.keys, List.flatMap_map]
    refine List.flatMap_congr fun row hrow => ?_
    obtain ⟨n, hn⟩ := hall row.1 (List.mem_map.2 ⟨row, hrow, rfl⟩)
    have hrow := OrderedMap.get?_eq_some_iff.2 hrow
    rw [hentry hn] at hrow
    rw [computationsOf_eq hn, ← Option.some.inj hrow]
    rfl
  rw [← hkeys]
  exact (h.listing_perm hentry hall).flatMap_right _

theorem agrees_of_ofTable (h : ofTable a = .ok t) : a.Agrees := by
  obtain ⟨⟨⟩, hcheck, -⟩ := bind_eq_ok.1 h
  exact (Table.crossCheck_eq_ok_iff a).1 hcheck

/-- An accepted table, seen through the forest of the loops that its roots
lead to. -/
theorem ofTable_eq_ok_iff_rooted (hagrees : a.Agrees) :
    ofTable a = .ok t ↔
      (∀ id ∈ a.loops.keys, ∃ n, a.rooted.nodes[id]? = some n) ∧ a.rooted.indexed = .ok t :=
  hagrees.linked_rooted.ofTable_eq_ok_iff Table.name_rooted Table.get?_rooted hagrees rfl

theorem wellFormed_of_ofTable (h : ofTable a = .ok t) : a.WellFormed := by
  have hagrees := agrees_of_ofTable h
  obtain ⟨hall, hindexed⟩ := (ofTable_eq_ok_iff_rooted hagrees).1 h
  refine { toAgrees := hagrees, grounded := ?_, computations_nodup := ?_ }
  · intro id entry hid
    obtain ⟨n, hn⟩ := hall id (OrderedMap.mem_keys.2 ⟨entry, hid⟩)
    obtain ⟨-, d, -, hd, -⟩ := Table.nodes_rooted.1 hn
    exact ⟨d, hd⟩
  · have hlinked := hagrees.linked_rooted
    rw [← (hlinked.computations_perm Table.get?_rooted hall).nodup_iff]
    exact hlinked.indexed_ok_iff.1 ⟨t, hindexed⟩

theorem exists_ofTable (h : a.WellFormed) : ∃ t, ofTable a = .ok t := by
  have hall : ∀ id ∈ a.loops.keys, ∃ n, a.rooted.nodes[id]? = some n := by
    intro id hid
    obtain ⟨entry, hentry⟩ := OrderedMap.mem_keys.1 hid
    obtain ⟨d, hd⟩ := h.grounded hentry
    exact ⟨entry.node id d, Table.nodes_rooted.2 ⟨entry, d, hentry, hd, rfl⟩⟩
  have hperm := h.linked_rooted.computations_perm Table.get?_rooted hall
  obtain ⟨t, ht⟩ := h.linked_rooted.indexed_ok_iff.2 (hperm.nodup_iff.2 h.computations_nodup)
  exact ⟨t, (ofTable_eq_ok_iff_rooted h.toAgrees).2 ⟨hall, ht⟩⟩

/-- The tables that become a forest are the well-formed ones; the table
without entries is one of them and becomes the forest without loops. -/
theorem accepted_iff_wellFormed (a : Table) :
    ((∃ t, ofTable a = .ok t) ↔ a.WellFormed) ∧ ofTable ⟨.empty⟩ = .ok .empty := by
  refine ⟨⟨?_, exists_ofTable⟩, rfl⟩
  rintro ⟨t, ht⟩
  exact wellFormed_of_ofTable ht

/-! ## Soundness -/

/-- Making the indices keeps roots and nodes. -/
theorem Linked.indexed_keeps (h : t.Linked) {u : Forest} (hu : t.indexed = .ok u) :
    u.roots = t.roots ∧ u.nodes = t.nodes := by
  rw [h.indexed_eq] at hu
  obtain ⟨owners, -, hu⟩ := bind_eq_ok.1 hu
  cases hu
  exact ⟨rfl, rfl⟩

/-- The nodes are those of the loops that a root leads to. -/
theorem nodes_of_ofTable (h : ofTable a = .ok t) : t.nodes = a.rooted.nodes := by
  have hagrees := agrees_of_ofTable h
  obtain ⟨-, hindexed⟩ := (ofTable_eq_ok_iff_rooted hagrees).1 h
  exact (hagrees.linked_rooted.indexed_keeps hindexed).2

/-- A table becomes a sound forest, which it describes. -/
theorem sound_of_ofTable (h : ofTable a = .ok t) : t.Sound ∧ a.Describes t := by
  have hagrees := agrees_of_ofTable h
  have hlinked := hagrees.linked_rooted
  obtain ⟨hall, hindexed⟩ := (ofTable_eq_ok_iff_rooted hagrees).1 h
  obtain ⟨hroots, hnodes⟩ := hlinked.indexed_keeps hindexed
  constructor
  · refine { toLinked := hlinked.congr hroots hnodes, named := ?_, indexed := ?_ }
    · intro id n hn
      rw [hnodes] at hn
      exact Table.name_rooted hn
    · rw [hlinked.indexed_congr hroots hnodes, hindexed]
  · refine ⟨hroots.symm, fun id => ?_⟩
    rw [hnodes]
    cases hid : a.loops.get? id with
    | none =>
      cases hn : a.rooted.nodes[id]? with
      | none => rfl
      | some n =>
        rw [Table.get?_rooted hn] at hid
        cases hid
    | some entry =>
      obtain ⟨n, hn⟩ := hall id (OrderedMap.mem_keys.2 ⟨entry, hid⟩)
      rw [hn, ← hid, Table.get?_rooted hn]
      rfl

theorem Linked.agrees_of_describes (h : t.Linked) (ha : a.Describes t) : a.Agrees := by
  constructor
  · intro id parent entry hid hp
    obtain ⟨n, hn, rfl⟩ := ha.exists_node hid
    obtain ⟨m, hm, hmem, -⟩ := h.above hn hp
    exact ⟨m.entry, ha.get?_of_node hm, hmem⟩
  · intro id child entry hid hc
    obtain ⟨n, hn, rfl⟩ := ha.exists_node hid
    obtain ⟨m, hm, hp⟩ := h.below hn hc
    exact ⟨m.entry, ha.get?_of_node hm, hp⟩
  · intro id entry hid
    obtain ⟨n, hn, rfl⟩ := ha.exists_node hid
    exact h.children_nodup hn

/-- A sound forest is what every table that describes it becomes, in
whatever order the table lists the inner loops. -/
theorem Sound.ofTable_eq (h : t.Sound) (ha : a.Describes t) : ofTable a = .ok t :=
  (h.toLinked.ofTable_eq_ok_iff h.named ha.get?_of_node (h.toLinked.agrees_of_describes ha)
    ha.roots_eq).2 ⟨fun _ => ha.mem_keys.1, h.indexed⟩

end Forest

end LoopNest
