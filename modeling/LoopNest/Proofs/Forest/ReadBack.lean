import LoopNest.Proofs.Forest.Checking
import LoopNest.Proofs.Forest.Reachable

/-!
LoopNest.Proofs.Forest.ReadBack — nothing in a forest goes stale.

An interchange never makes levels or indices afresh.  That they are right
all the same can be seen in two ways: the check passes (`Sound.check_eq`),
and a table written down from the nodes alone becomes the very same forest,
levels and indices included (`interchangeAll_readBack`).
-/

namespace LoopNest

namespace Forest

variable {t : Forest}

/-! ## The check -/

/-- A sound forest passes the check. -/
theorem Sound.check_eq (h : t.Sound) : t.check = .ok () :=
  (check_eq_ok_iff_linked h.id_eq).2 ⟨h.toLinked, fun howner => h.owner_iff.1 howner⟩

/-! ## Tables from forests -/

/-- What the nodes of some loops say, loop after loop. -/
def rows (t : Forest) (ids : List LoopId) : List (LoopId × Entry) :=
  ids.filterMap fun id => t.nodes[id]?.map fun n => (id, n.entry)

/-- The table read back from the nodes: the roots first, in their order,
then all other loops. -/
def readBack (t : Forest) : Table where
  loops := .ofList (t.rows (t.roots ++ t.nodes.keys.filter fun id => id ∉ t.roots))

theorem mem_rows {ids : List LoopId} {id : LoopId} {entry : Entry} :
    (id, entry) ∈ t.rows ids ↔ id ∈ ids ∧ t.nodes[id]?.map Node.entry = some entry := by
  simp [rows]

theorem rows_cons_of_none {id : LoopId} {rest : List LoopId} (hn : t.nodes[id]? = none) :
    t.rows (id :: rest) = t.rows rest := by
  simp [rows, hn]

theorem rows_cons_of_some {id : LoopId} {rest : List LoopId} {n : Node}
    (hn : t.nodes[id]? = some n) : t.rows (id :: rest) = (id, n.entry) :: t.rows rest := by
  simp [rows, hn]

theorem map_fst_rows_sublist : ∀ ids : List LoopId, ((t.rows ids).map Prod.fst).Sublist ids
  | [] => List.Sublist.refl []
  | id :: rest => by
      cases hn : t.nodes[id]? with
      | none =>
        rw [rows_cons_of_none hn]
        exact (map_fst_rows_sublist rest).cons id
      | some n =>
        rw [rows_cons_of_some hn]
        exact (map_fst_rows_sublist rest).cons_cons id

/-- The rows without a parent are those of the roots. -/
theorem Linked.roots_rows (h : t.Linked) : ∀ ids : List LoopId,
    ((t.rows ids).filter fun p => p.2.parent.isNone).map Prod.fst
      = ids.filter fun id => id ∈ t.roots
  | [] => rfl
  | id :: rest => by
      have ih := roots_rows h rest
      cases hn : t.nodes[id]? with
      | none =>
        have hid : id ∉ t.roots := by simp [h.mem_roots, hn]
        rw [rows_cons_of_none hn, ih, List.filter_cons_of_neg (by simpa using hid)]
      | some n =>
        have hid : id ∈ t.roots ↔ n.entry.parent = none := h.mem_roots_iff hn
        rw [rows_cons_of_some hn]
        by_cases hp : n.entry.parent = none
        · rw [List.filter_cons_of_pos (by simp [hp]), List.map_cons, ih,
            List.filter_cons_of_pos (by simpa using hid.2 hp)]
        · rw [List.filter_cons_of_neg (by simpa using hp), ih,
            List.filter_cons_of_neg (by simpa using fun e => hp (hid.1 e))]

/-- The table read back from a forest describes it. -/
theorem Linked.describes_readBack (h : t.Linked) : t.readBack.Describes t := by
  have hnodup : (t.roots ++ t.nodes.keys.filter fun id => id ∉ t.roots).Nodup := by
    refine List.nodup_append.2 ⟨h.roots_nodup, Std.ExtTreeMap.nodup_keys.filter _, ?_⟩
    rintro r hr id hid rfl
    simp [hr] at hid
  have hentries : t.readBack.loops.entries
      = t.rows (t.roots ++ t.nodes.keys.filter fun id => id ∉ t.roots) :=
    OrderedMap.entries_ofList (hnodup.sublist (map_fst_rows_sublist _))
  constructor
  · rw [Table.roots, hentries, h.roots_rows, List.filter_append, List.filter_filter]
    simp
  · intro id
    refine Option.ext fun entry => ?_
    rw [OrderedMap.get?_eq_some_iff, hentries, mem_rows]
    refine and_iff_right_of_imp fun hentry => ?_
    obtain ⟨n, hn, -⟩ := Option.map_eq_some_iff.1 hentry
    by_cases hid : id ∈ t.roots
    · exact List.mem_append_left _ hid
    · exact List.mem_append_right _
        (List.mem_filter.2 ⟨mem_keys_iff.2 ⟨n, hn⟩, by simpa using hid⟩)

/-- Whatever interchanges a forest from a table has gone through, refused
ones among them, it passes the check and is the forest that the table read
back from its nodes describes, in roots, nodes and indices.  So is it for
every other table that describes it. -/
theorem interchangeAll_readBack {a : Table} (h : ofTable a = .ok t)
    (calls : List (LoopId × LoopId)) :
    let u := t.interchangeAll calls
    u.check = .ok () ∧ u.readBack.Describes u ∧ ofTable u.readBack = .ok u ∧
      ∀ b : Table, b.Describes u → ofTable b = .ok u := by
  intro u
  have hsound : u.Sound := (sound_of_ofTable h).1.interchangeAll calls
  have hread := hsound.toLinked.describes_readBack
  exact ⟨hsound.check_eq, hread, hsound.ofTable_eq hread, fun b hb => hsound.ofTable_eq hb⟩

theorem twoDeep_readBack :
    ∃ t, ofTable .twoDeep = .ok t ∧
      let u := t.interchangeAll [(⟨"i"⟩, ⟨"j"⟩), (⟨"k"⟩, ⟨"i"⟩)]
      u.roots = [⟨"j"⟩] ∧ u.check = .ok () ∧ ofTable u.readBack = .ok u := by
  have hread := interchangeAll_readBack (a := .twoDeep) rfl [(⟨"i"⟩, ⟨"j"⟩), (⟨"k"⟩, ⟨"i"⟩)]
  exact ⟨_, rfl, by decide +kernel, hread.1, hread.2.2.1⟩

end Forest

end LoopNest
