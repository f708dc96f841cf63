import LoopNest.Proofs.Forest.Acceptance
import LoopNest.Proofs.Forest.Lookup
import LoopNest.Proofs.Forest.Reachable

/-!
LoopNest.Proofs.Forest.Representation — what a table says is what its
forest holds.

The construction gives levels breadth first and lists computations with a
stack, both over the table as it happens to be written.  What they come to
can be said of the table alone: the level of a loop is the number of steps
up to a root (`Table.Depth`), and the computations are those of each entry
followed by those of its children (`Table.Lists`).

* `Table.Lists` — a listing of computations by recursion on entries, with
  `Lists.unique`;
* `Linked.lists` — a forest that holds the entries of a table lists its
  computations in this order;
* `Table.Represents`, `represents_of_ofTable` — the whole of it.
-/

namespace LoopNest

namespace Table

variable {a : Table}

/-- The computations of some loops and of everything inside them: loop after
loop its own, then those of its children. -/
inductive Lists (a : Table) : List LoopId → List String → Prop where
  | nil : Lists a [] []
  | cons {id : LoopId} {entry : Entry} {rest : List LoopId} {below others : List String} :
    a.loops.get? id = some entry → Lists a entry.children below → Lists a rest others →
      Lists a (id :: rest) (entry.computations ++ below ++ others)

/-- Some loops have one listing. -/
theorem Lists.unique {ids : List LoopId} {names others : List String} (h : a.Lists ids names)
    (h' : a.Lists ids others) : names = others := by
  induction h generalizing others with
  | nil =>
    cases h' with
    | nil => rfl
  | cons hid _ _ ihBelow ihRest =>
    cases h' with
    | cons hid' hbelow hrest =>
      rw [hid] at hid'
      cases hid'
      rw [ihBelow hbelow, ihRest hrest]

/-- Listings that can be put before any other make a listing of all. -/
theorem Lists.flatMap {f : LoopId → List String} {ids : List LoopId}
    (h : ∀ id ∈ ids, ∀ rest others, a.Lists rest others → a.Lists (id :: rest) (f id ++ others)) :
    a.Lists ids (ids.flatMap f) := by
  induction ids with
  | nil => exact .nil
  | cons id rest ih =>
    rw [List.flatMap_cons]
    refine h id (List.mem_cons_self ..) rest _ (ih fun x hx => ?_)
    exact h x (List.mem_cons_of_mem _ hx)

/-- A forest that holds what a table says, loop by loop, and nothing else. -/
structure Represents (a : Table) (t : Forest) : Prop where
  loops : ∀ id, t.contains id = true ↔ id ∈ a.loops.keys
  size : t.size = a.loops.size
  /-- the loops without a parent, in table order -/
  roots : t.roots = (a.loops.entries.filter fun row => row.2.parent.isNone).map Prod.fst
  node : ∀ {id : LoopId} {entry : Entry}, a.loops.get? id = some entry →
    ∃ n, t.nodes[id]? = some n ∧ n.id = id ∧ n.name = id.text ∧
      n.lower = entry.lower ∧ n.upper = entry.upper ∧ n.parent = entry.parent ∧
      n.children = entry.children ∧ n.computations = entry.computations
  /-- the level counts the steps that parents in the table take to a root -/
  level : ∀ {id : LoopId} {n : Node}, t.nodes[id]? = some n → ∀ d, a.Depth id d ↔ d = n.level
  /-- root after root, those of a loop before those of its children -/
  computations : ∀ names, a.Lists a.roots names ↔ names = t.computations
  /-- and no entry is left out -/
  computations_perm :
    t.computations.Perm (a.loops.entries.flatMap fun row => row.2.computations)
  /-- positions in that order, from one -/
  ranks : ∀ c k, t.rank? c = some k ↔ ∃ i, k = i + 1 ∧ t.computations[i]? = some c
  owners : ∀ (c : String) (id : LoopId), t.owners[c]? = some id ↔
    ∃ entry, a.loops.get? id = some entry ∧ c ∈ entry.computations

end Table

namespace Forest

variable {t : Forest} {a : Table}

/-- The recursion over entries and the one over nodes list the same. -/
theorem Linked.lists (h : t.Linked) (ha : a.Describes t) {ids : List LoopId}
    (hids : ∀ id ∈ ids, ∃ n, t.nodes[id]? = some n) :
    a.Lists ids (ids.flatMap fun id => (t.inside id).flatMap t.computationsOf) := by
  refine Table.Lists.flatMap fun id hid => ?_
  obtain ⟨n, hn⟩ := hids id hid
  refine h.fromLeaves (motive := fun id => ∀ rest others, a.Lists rest others →
    a.Lists (id :: rest) ((t.inside id).flatMap t.computationsOf ++ others)) ?_ hn
  intro id n hn ih rest others hrest
  have hbelow := Table.Lists.flatMap ih
  have hinside : (t.inside id).flatMap t.computationsOf = n.computations ++
      n.children.flatMap fun c => (t.inside c).flatMap t.computationsOf := by
    rw [h.inside_eq hn, List.flatMap_cons, computationsOf_eq hn, List.flatMap_assoc]
  rw [hinside]
  exact .cons (ha.get?_of_node hn) hbelow hrest

namespace Sound

/-- The stored computations are the recursive listing from the roots. -/
theorem lists_roots_iff (h : t.Sound) (ha : a.Describes t) (names : List String) :
    a.Lists a.roots names ↔ names = t.computations := by
  have hlists := h.toLinked.lists ha fun r hr =>
    (h.toLinked.exists_node_of_mem_roots hr).imp fun _ hn => hn.1
  rw [← List.flatMap_assoc, ← listing, ← h.indices_eq.1, ← ha.roots_eq] at hlists
  constructor
  · exact fun hnames => hnames.unique hlists
  · rintro rfl
    exact hlists

/-- A rank is a position counted from one. -/
theorem rank?_eq_some_iff (h : t.Sound) (c : String) (k : Nat) :
    t.rank? c = some k ↔ ∃ i, k = i + 1 ∧ t.computations[i]? = some c := by
  rw [h.rank?_eq]
  constructor
  · intro hk
    split at hk
    · next hc =>
      cases hk
      exact ⟨t.computations.idxOf c, by omega, by simp [hc]⟩
    · cases hk
  · rintro ⟨i, rfl, hi⟩
    obtain ⟨hlt, rfl⟩ := List.getElem?_eq_some_iff.1 hi
    rw [if_pos (List.getElem_mem hlt), h.nodup_computations.idxOf_getElem, Nat.add_comm]

theorem owner_iff_entry (h : t.Sound) (ha : a.Describes t) (c : String) (id : LoopId) :
    t.owners[c]? = some id ↔ ∃ entry, a.loops.get? id = some entry ∧ c ∈ entry.computations := by
  rw [h.owner_iff]
  constructor
  · rintro ⟨n, hn, hc⟩
    exact ⟨n.entry, ha.get?_of_node hn, hc⟩
  · rintro ⟨entry, hid, hc⟩
    obtain ⟨n, hn, rfl⟩ := ha.exists_node hid
    exact ⟨n, hn, hc⟩

end Sound

/-- An accepted table is represented in full: its loops and no others, each
with what its entry says, roots in table order, levels counted along parents,
computations listed by recursion and ranked in that order, and each of them
owned by the loop whose entry names it. -/
theorem represents_of_ofTable (h : ofTable a = .ok t) : a.Represents t := by
  obtain ⟨hsound, hdescribes⟩ := sound_of_ofTable h
  have hlinked := hsound.toLinked
  have hnodes : ∀ {id : LoopId} {n : Node}, t.nodes[id]? = some n ↔ ∃ entry d,
      a.loops.get? id = some entry ∧ a.Depth id d ∧ n = entry.node id d := by
    intro id n
    rw [nodes_of_ofTable h, Table.nodes_rooted]
  have hall : ∀ id ∈ a.loops.keys, ∃ n, t.nodes[id]? = some n := fun _ => hdescribes.mem_keys.1
  constructor
  case loops =>
    intro id
    rw [contains_eq_true_iff, hdescribes.mem_keys]
  case size =>
    have hlength := (hlinked.listing_perm hdescribes.get?_of_node hall).length_eq
    rw [← hlinked.length_listing, hlength, OrderedMap.keys, List.length_map, OrderedMap.size]
  case roots => exact hdescribes.roots_eq.symm
  case node =>
    intro id entry hid
    obtain ⟨n, hn, rfl⟩ := hdescribes.exists_node hid
    exact ⟨n, hn, hlinked.id_eq hn, hsound.named hn, rfl, rfl, rfl, rfl, rfl⟩
  case level =>
    intro id n hn d
    obtain ⟨entry, e, -, he, rfl⟩ := hnodes.1 hn
    constructor
    · exact fun hd => hd.unique he
    · rintro rfl
      exact he
  case computations => exact hsound.lists_roots_iff hdescribes
  case computations_perm =>
    rw [hsound.indices_eq.1]
    exact hlinked.computations_perm hdescribes.get?_of_node hall
  case ranks => exact hsound.rank?_eq_some_iff
  case owners => exact hsound.owner_iff_entry hdescribes

/-- In the forest of `branching` the innermost loop `l` lies two steps below
the root, and its computation comes second. -/
theorem branching_represented :
    ∃ t n, ofTable .branching = .ok t ∧ t.nodes[(⟨"l"⟩ : LoopId)]? = some n ∧
      Table.branching.Depth ⟨"l"⟩ 2 ∧ n.level = 2 ∧
      Table.branching.Lists [⟨"i"⟩] ["S", "T"] ∧ t.rank? "T" = some 2 := by
  obtain ⟨t, ht⟩ : ∃ t, ofTable .branching = .ok t := ⟨_, rfl⟩
  obtain ⟨n, hn, hlevel⟩ : ∃ n, t.nodes[(⟨"l"⟩ : LoopId)]? = some n ∧ n.level = 2 := by
    cases ht
    exact ⟨_, rfl, rfl⟩
  have hcomputations : t.computations = ["S", "T"] := by
    cases ht
    rfl
  have hrepresents := represents_of_ofTable ht
  refine ⟨t, n, ht, hn, ?_, hlevel, ?_, ?_⟩
  · exact (hrepresents.level hn 2).2 hlevel.symm
  · exact (hrepresents.computations _).2 hcomputations.symm
  · exact (hrepresents.ranks "T" 2).2 ⟨1, rfl, by rw [hcomputations]; rfl⟩

end Forest

end LoopNest
