import LoopNest.Proofs.Forest.Pass
import LoopNest.Proofs.Table.WellFormed

/-!
LoopNest.Proofs.Forest.Settling — which tables become forests, and which
forests.

The loops that parents lead from to a root form a linked forest of their
own, whatever else a table of agreeing entries holds (`Table.rooted`).  The
breadth-first pass of the construction settles exactly these, and with them
its queue empties (`Table.queue_empties`).  Circles of parents stay off the
queue: where entries agree, a loop on a circle is listed by its parent only,
which is on the circle as well.

* `Table.Describes` — a table and a forest say the same of every loop;
* `Agrees.linked_rooted` — the forest within a table of agreeing entries;
* `Linked.ofTable_eq_ok_iff` — the construction, seen through a linked
  forest of which the table holds the entries.
-/

namespace LoopNest

/-- A table describes a forest: it has the same loops with the same bounds,
neighbours and computations, and its roots in the same order. -/
structure Table.Describes (a : Table) (t : Forest) : Prop where
  roots_eq : a.roots = t.roots
  get?_eq : ∀ id, a.loops.get? id = t.nodes[id]?.map Node.entry

namespace Table.Describes

variable {a : Table} {t : Forest} {id : LoopId}

theorem get?_of_node (h : a.Describes t) {n : Node} (hn : t.nodes[id]? = some n) :
    a.loops.get? id = some n.entry := by
  rw [h.get?_eq, hn, Option.map_some]

theorem exists_node (h : a.Describes t) {entry : Entry} (hid : a.loops.get? id = some entry) :
    ∃ n, t.nodes[id]? = some n ∧ n.entry = entry := by
  rwa [h.get?_eq, Option.map_eq_some_iff] at hid

theorem mem_keys (h : a.Describes t) : id ∈ a.loops.keys ↔ ∃ n, t.nodes[id]? = some n := by
  rw [OrderedMap.mem_keys]
  constructor
  · rintro ⟨entry, hid⟩
    exact (h.exists_node hid).imp fun _ hn => hn.1
  · rintro ⟨n, hn⟩
    exact ⟨n.entry, h.get?_of_node hn⟩

end Table.Describes

/-! ## The loops that a root leads to -/

namespace Table

open Classical in
/-- The depth of a loop; zero for a loop from which parents never end. -/
noncomputable def depth (a : Table) (id : LoopId) : Nat :=
  if h : ∃ depth, a.Depth id depth then h.choose else 0

open Classical in
/-- The nodes of the loops that a root leads to. -/
noncomputable def rootedNodes (a : Table) : List Node :=
  (a.loops.entries.filter fun row => ∃ depth, a.Depth row.1 depth).map fun row =>
    row.2.node row.1 (a.depth row.1)

/-- The forest of the loops that a root leads to, its indices left open. -/
noncomputable def rooted (a : Table) : Forest :=
  { Forest.empty with roots := a.roots, nodes := Forest.store a.rootedNodes }

variable {a : Table}

theorem Depth.depth_eq {id : LoopId} {d : Nat} (h : a.Depth id d) : a.depth id = d := by
  have hex : ∃ depth, a.Depth id depth := ⟨d, h⟩
  rw [depth, dif_pos hex]
  exact hex.choose_spec.unique h

theorem nodup_rootedNodes (a : Table) : (a.rootedNodes.map Node.id).Nodup := by
  refine a.loops.nodup_keys.sublist ?_
  rw [rootedNodes, List.map_map]
  exact List.filter_sublist.map Prod.fst

open Classical in
theorem nodes_rooted {id : LoopId} {n : Node} :
    a.rooted.nodes[id]? = some n ↔ ∃ entry depth,
      a.loops.get? id = some entry ∧ a.Depth id depth ∧ n = entry.node id depth := by
  show (Forest.store a.rootedNodes)[id]? = some n ↔ _
  rw [Forest.getElem?_store a.nodup_rootedNodes]
  constructor
  · rintro ⟨hn, rfl⟩
    obtain ⟨⟨id, entry⟩, hrow, rfl⟩ := List.mem_map.1 hn
    obtain ⟨hrow, hd⟩ := List.mem_filter.1 hrow
    obtain ⟨d, hd⟩ := of_decide_eq_true hd
    refine ⟨entry, d, OrderedMap.get?_eq_some_iff.2 hrow, hd, ?_⟩
    rw [hd.depth_eq]
    rfl
  · rintro ⟨entry, d, hentry, hd, rfl⟩
    refine ⟨List.mem_map.2 ⟨(id, entry), List.mem_filter.2 ⟨?_, ?_⟩, ?_⟩, rfl⟩
    · exact OrderedMap.get?_eq_some_iff.1 hentry
    · exact decide_eq_true ⟨d, hd⟩
    · rw [hd.depth_eq]

/-- Where parents and children agree, the loops that a root leads to form a
linked forest: neither parents nor children lead out of them. -/
theorem Agrees.linked_rooted (h : a.Agrees) : a.rooted.Linked where
  id_eq := by
    intro id n hn
    obtain ⟨entry, d, -, -, rfl⟩ := nodes_rooted.1 hn
    rfl
  roots_nodup := a.nodup_roots
  mem_roots := by
    intro id
    show id ∈ a.roots ↔ _
    rw [mem_roots]
    constructor
    · rintro ⟨entry, hid, hp⟩
      exact ⟨entry.node id 0, nodes_rooted.2 ⟨entry, 0, hid, .root hid hp, rfl⟩, hp⟩
    · rintro ⟨n, hn, hp⟩
      obtain ⟨entry, d, hid, -, rfl⟩ := nodes_rooted.1 hn
      exact ⟨entry, hid, hp⟩
  level_root := by
    intro id n hn hp
    obtain ⟨entry, d, hid, hd, rfl⟩ := nodes_rooted.1 hn
    exact hd.unique (.root hid hp)
  above := by
    intro id p n hn hp
    obtain ⟨entry, d, hid, hd, rfl⟩ := nodes_rooted.1 hn
    obtain ⟨above, habove, hmem⟩ := h.parent_lists hid hp
    cases hd with
    | root hid' hp' =>
      rw [hid] at hid'
      cases hid'
      rw [show entry.parent = some p from hp] at hp'
      cases hp'
    | @inner _ q _ d hid' hp' hd =>
      rw [hid] at hid'
      cases hid'
      rw [show entry.parent = some p from hp] at hp'
      cases hp'
      exact ⟨above.node p d, nodes_rooted.2 ⟨above, d, habove, hd, rfl⟩, hmem, rfl⟩
  below := by
    intro id c n hn hc
    obtain ⟨entry, d, hid, hd, rfl⟩ := nodes_rooted.1 hn
    obtain ⟨below, hbelow, hp⟩ := h.child_names hid hc
    exact ⟨below.node c (d + 1),
      nodes_rooted.2 ⟨below, d + 1, hbelow, .inner hbelow hp hd, rfl⟩, hp⟩
  children_nodup := by
    intro id n hn
    obtain ⟨entry, d, hid, -, rfl⟩ := nodes_rooted.1 hn
    exact h.children_nodup hid

theorem name_rooted {id : LoopId} {n : Node} (hn : a.rooted.nodes[id]? = some n) :
    n.name = id.text := by
  obtain ⟨entry, d, -, -, rfl⟩ := nodes_rooted.1 hn
  rfl

theorem get?_rooted {id : LoopId} {n : Node} (hn : a.rooted.nodes[id]? = some n) :
    a.loops.get? id = some n.entry := by
  obtain ⟨entry, d, hid, -, rfl⟩ := nodes_rooted.1 hn
  exact hid

theorem carries_rooted : a.Carries a.rooted where
  roots_eq := rfl
  name_eq := name_rooted
  get?_eq := get?_rooted

/-- What the forest of the roots knows of a level is the depth in the table. -/
theorem depth_iff_rooted {id : LoopId} {level : Nat} :
    a.Depth id level ↔ ∃ n, a.rooted.nodes[id]? = some n ∧ n.level = level := by
  constructor
  · intro hd
    obtain ⟨entry, hid⟩ := hd.exists_entry
    exact ⟨entry.node id level, nodes_rooted.2 ⟨entry, level, hid, hd, rfl⟩, rfl⟩
  · rintro ⟨n, hn, rfl⟩
    obtain ⟨entry, d, -, hd, rfl⟩ := nodes_rooted.1 hn
    exact hd

/-- Where the cross check is passed, the queue of the pass empties, also if
there are circles of parents in the table.  No step fails; a loop is taken off
the queue at most once, and only with its depth for a level; and after as many
steps as there are entries just the loops that have a depth were taken, and
the pass has what it settles. -/
theorem queue_empties (h : a.crossCheck a.loops.entries = .ok ()) :
    (∀ k, ∃ s, a.passAfter k = .ok s ∧ (s.queue = [] ∨ s.taken.length = k) ∧
      (s.taken.map Prod.fst).Nodup ∧ s.taken.length ≤ a.loops.size ∧
      ∀ id level, (id, level) ∈ s.taken → a.Depth id level) ∧
    ∀ k, a.loops.size ≤ k → ∃ s, a.passAfter k = .ok s ∧ s.queue = [] ∧
      (∀ id level, (id, level) ∈ s.taken ↔ a.Depth id level) ∧
      a.settle k (a.roots.map fun root => (root, 0)) = .ok s.made ∧
      s.made.map (fun n => (n.id, n.level)) = s.taken := by
  have hlinked := ((crossCheck_eq_ok_iff a).1 h).linked_rooted
  have hcarries : a.Carries a.rooted := carries_rooted
  constructor
  · intro k
    obtain ⟨s, hs, hunder, hcount⟩ := hlinked.exists_passAfter hcarries k
    refine ⟨s, hs, hcount, hunder.nodup_taken hlinked, hunder.length_taken_le hlinked hcarries,
      fun id level hid => ?_⟩
    obtain ⟨n, hn, rfl, rfl⟩ := hunder.mem_taken_iff.1 hid
    exact depth_iff_rooted.2 ⟨n, hunder.made n hn, rfl⟩
  · intro k hk
    obtain ⟨s, hs, hunder, hqueue⟩ := hlinked.exists_passAfter_of_le hcarries hk
    refine ⟨s, hs, hqueue, fun id level => ?_, settle_of_queue_nil hs hqueue,
      hunder.taken_eq.symm⟩
    rw [hunder.mem_taken_iff, depth_iff_rooted]
    constructor
    · rintro ⟨n, hn, rfl, hl⟩
      exact ⟨n, hunder.made n hn, hl⟩
    · rintro ⟨n, hn, hl⟩
      have hid := hlinked.id_eq hn
      exact ⟨n, (hunder.mem_made_iff hlinked hqueue).2 (hid.symm ▸ hn), hid, hl⟩

/-- A root with a loop inside it, and beside them a circle of two loops and a loop
that is its own parent and child. -/
def withCircles : Table where
  loops := .ofList [
    (⟨"a"⟩, { parent := some ⟨"b"⟩, lower := .constant 0, upper := .symbolic "N",
              children := [⟨"b"⟩] }),
    (⟨"b"⟩, { parent := some ⟨"a"⟩, lower := .constant 0, upper := .symbolic "N",
              children := [⟨"a"⟩] }),
    (⟨"r"⟩, { parent := none, lower := .constant 0, upper := .symbolic "N",
              children := [⟨"c"⟩] }),
    (⟨"s"⟩, { parent := some ⟨"s"⟩, lower := .constant 0, upper := .symbolic "N",
              children := [⟨"s"⟩] }),
    (⟨"c"⟩, { parent := some ⟨"r"⟩, lower := .constant 0, upper := .symbolic "N",
              computations := ["S"] })]

/-- The circles of `withCircles` stay off the queue. -/
theorem queue_empties_withCircles :
    withCircles.crossCheck withCircles.loops.entries = .ok () ∧
      ∃ s, withCircles.passAfter 5 = .ok s ∧ s.queue = [] ∧
        s.taken = [(⟨"r"⟩, 0), (⟨"c"⟩, 1)] ∧ ¬∃ level, withCircles.Depth ⟨"a"⟩ level := by
  have hcheck : withCircles.crossCheck withCircles.loops.entries = .ok () := rfl
  obtain ⟨s, hs, hqueue, htaken, -⟩ := (queue_empties hcheck).2 5 (by decide)
  have hlist : s.taken = [(⟨"r"⟩, 0), (⟨"c"⟩, 1)] := by
    cases hs
    rfl
  refine ⟨hcheck, s, hs, hqueue, hlist, ?_⟩
  rintro ⟨level, ha⟩
  rw [← htaken, hlist] at ha
  simp at ha

end Table

namespace Forest

variable {t : Forest} {a : Table}

/-! ## The whole construction -/

/-- Being linked is a matter of roots and nodes. -/
theorem Linked.congr {u : Forest} (h : t.Linked) (hroots : u.roots = t.roots)
    (hnodes : u.nodes = t.nodes) : u.Linked := by
  obtain ⟨roots, nodes, _, _, _⟩ := u
  subst hroots hnodes
  exact ⟨h.id_eq, h.roots_nodup, h.mem_roots, h.level_root, h.above, h.below, h.children_nodup⟩

theorem insideTo_congr {u : Forest} (hnodes : u.nodes = t.nodes) :
    ∀ (depth : Nat) (id : LoopId), u.insideTo depth id = t.insideTo depth id
  | 0, _ => rfl
  | depth + 1, id => by
      have hchildren : u.childrenOf id = t.childrenOf id := by
        rw [childrenOf, childrenOf, hnodes]
      rw [insideTo, insideTo, hchildren]
      congr 1
      exact List.flatMap_congr fun c _ => insideTo_congr hnodes depth c

/-- So are the indices made afresh. -/
theorem Linked.indexed_congr {u : Forest} (h : t.Linked) (hroots : u.roots = t.roots)
    (hnodes : u.nodes = t.nodes) : u.indexed = t.indexed := by
  have hlisting : u.listing = t.listing := by
    rw [listing, listing, hroots]
    refine List.flatMap_congr fun r _ => ?_
    rw [inside, inside, size, size, hnodes, insideTo_congr hnodes]
  have hcomputations : u.computationsOf = t.computationsOf := by
    funext id
    rw [computationsOf, computationsOf, hnodes]
  rw [h.indexed_eq, (h.congr hroots hnodes).indexed_eq, held, held, hlisting, hcomputations,
    hroots, hnodes]

/-- Once parents and children of a table are known to agree, what becomes of it
is seen from the linked forest of its roots. -/
theorem Linked.ofTable_eq (h : t.Linked)
    (hnamed : ∀ {id : LoopId} {n : Node}, t.nodes[id]? = some n → n.name = id.text)
    (hentry : ∀ {id : LoopId} {n : Node}, t.nodes[id]? = some n →
      a.loops.get? id = some n.entry)
    (hagrees : a.Agrees) (hroots : a.roots = t.roots) :
    ofTable a =
      if t.roots = [] ∧ a.loops.entries ≠ [] then .error (.invalidTable .noRoot)
      else
        (a.loops.keys.find? fun id => !t.nodes.contains id).elim t.indexed
          fun stray => .error (.invalidNode stray .unreachable) := by
  obtain ⟨nodes, hsettle, hstore⟩ := h.settle_roots ⟨hroots, hnamed, hentry⟩
  rw [hroots] at hsettle
  have hbare : ({ empty with roots := t.roots, nodes := t.nodes } : Forest).indexed = t.indexed :=
    h.indexed_congr rfl rfl
  rw [ofTable, (Table.crossCheck_eq_ok_iff a).2 hagrees]
  simp only [ok_bind, hroots, hsettle, hstore, hbare]
  cases a.loops.keys.find? fun id => !t.nodes.contains id <;> rfl

/-- A table is accepted exactly if every loop of it belongs to the linked
forest of its roots and the indices of that forest can be made. -/
theorem Linked.ofTable_eq_ok_iff (h : t.Linked)
    (hnamed : ∀ {id : LoopId} {n : Node}, t.nodes[id]? = some n → n.name = id.text)
    (hentry : ∀ {id : LoopId} {n : Node}, t.nodes[id]? = some n →
      a.loops.get? id = some n.entry)
    (hagrees : a.Agrees) (hroots : a.roots = t.roots) {u : Forest} :
    ofTable a = .ok u ↔
      (∀ id ∈ a.loops.keys, ∃ n, t.nodes[id]? = some n) ∧ t.indexed = .ok u := by
  rw [h.ofTable_eq hnamed hentry hagrees hroots]
  by_cases hnone : t.roots = [] ∧ a.loops.entries ≠ []
  · -- no roots, no nodes: a table with entries has a loop that is not there
    rw [if_pos hnone]
    obtain ⟨row, hrow⟩ := List.exists_mem_of_ne_nil _ hnone.2
    constructor
    · intro he
      cases he
    · rintro ⟨hall, -⟩
      obtain ⟨n, hn⟩ := hall row.1 (List.mem_map.2 ⟨row, hrow, rfl⟩)
      have hlisted := h.mem_listing.2 ⟨n, hn⟩
      simp [listing, hnone.1] at hlisted
  · rw [if_neg hnone]
    cases hfind : a.loops.keys.find? fun id => !t.nodes.contains id with
    | some stray =>
      have hstray : ¬ ∃ n, t.nodes[stray]? = some n := by
        rintro ⟨n, hn⟩
        have hcontains := List.find?_some hfind
        simp [Std.ExtTreeMap.contains_eq_isSome_getElem?, hn] at hcontains
      constructor
      · intro he
        cases he
      · rintro ⟨hall, -⟩
        exact absurd (hall stray (List.mem_of_find?_eq_some hfind)) hstray
    | none =>
      have hall : ∀ id ∈ a.loops.keys, ∃ n, t.nodes[id]? = some n := by
        intro id hid
        have hcontains := List.find?_eq_none.1 hfind id hid
        cases hn : t.nodes[id]? with
        | none => simp [Std.ExtTreeMap.contains_eq_isSome_getElem?, hn] at hcontains
        | some n => exact ⟨n, rfl⟩
      exact ⟨fun hu => ⟨hall, hu⟩, fun hu => hu.2⟩

end Forest

end LoopNest
