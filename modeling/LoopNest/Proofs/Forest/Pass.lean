import LoopNest.Proofs.Forest.Walks

/-!
LoopNest.Proofs.Forest.Pass — the breadth-first pass, step by step.

`Table.settle` says what the pass makes, and not how it goes along: which
loops it takes off the queue, and what it leaves there.  A step (`Pass.step`)
does, and the steps together make what `settle` makes
(`settle_of_passAfter`).

The pass has no record of what it has visited.  Where the table carries a
linked forest with the same roots, it needs none: the loops taken so far and
those inside the pending ones are the loops of the forest, each of them once
(`Underway`).  Every step keeps this and lowers what is pending, whatever
else the table holds.

* `Underway.exists_step`, `Linked.exists_passAfter` — one step, and a run;
* `Underway.queue_eq_nil` — the run is over once it has taken as many loops
  as the table has;
* `Linked.settle_roots` — the pass settles the whole forest.
-/

namespace LoopNest

/-- The node of an entry at a level. -/
def Entry.node (id : LoopId) (entry : Entry) (level : Nat) : Node where
  id := id
  name := id.text
  lower := entry.lower
  upper := entry.upper
  parent := entry.parent
  children := entry.children
  computations := entry.computations
  level := level

/-- What a node says of its loop, as an entry. -/
def Node.entry (n : Node) : Entry where
  parent := n.parent
  lower := n.lower
  upper := n.upper
  children := n.children
  computations := n.computations

theorem Node.node_entry {n : Node} {id : LoopId} (hid : n.id = id) (hname : n.name = id.text) :
    n.entry.node id n.level = n := by
  subst hid
  cases n
  simp_all [Node.entry, Entry.node]

theorem Entry.build_draft (id : LoopId) (entry : Entry) (level : Nat) :
    (entry.draft id level).build = Draft.validate (entry.node id level) := rfl

/-! ## Steps -/

/-- How far the pass over a table has come. -/
structure Pass where
  /-- the loops that were taken off the queue, the first one first -/
  taken : List (LoopId × Nat)
  /-- their nodes -/
  made : List Node
  queue : List (LoopId × Nat)

/-- Take a loop off the queue, make its node and put its children on the queue.
Without a loop on the queue the pass is over. -/
def Pass.step (a : Table) (s : Pass) : Except Error Pass :=
  match s.queue with
  | [] => .ok s
  | (id, level) :: queue => do
    let entry ← a.entry id
    let node ← (entry.draft id level).build
    return {
      taken := s.taken ++ [(id, level)]
      made := s.made ++ [node]
      queue := queue ++ entry.children.map fun child => (child, level + 1) }

namespace Table

variable {a : Table}

/-- The pass after some steps.  It starts with the roots on the queue. -/
def passAfter (a : Table) : Nat → Except Error Pass
  | 0 => .ok { taken := [], made := [], queue := a.roots.map fun root => (root, 0) }
  | k + 1 => do (← a.passAfter k).step a

/-- A step makes the node that `settle` makes at this point. -/
theorem settle_of_step {s s' : Pass} (h : s.step a = .ok s') (fuel : Nat) :
    (a.settle (fuel + 1) s.queue).map (s.made ++ ·)
      = (a.settle fuel s'.queue).map (s'.made ++ ·) := by
  obtain ⟨taken, made, queue⟩ := s
  cases queue with
  | nil =>
    cases h
    rw [settle, settle]
  | cons p rest =>
    obtain ⟨entry, hentry, h⟩ := bind_eq_ok.1 h
    obtain ⟨node, hnode, h⟩ := bind_eq_ok.1 h
    cases h
    have hsettle : a.settle (fuel + 1) (p :: rest)
        = (a.settle fuel (rest ++ entry.children.map fun child => (child, p.2 + 1))).map
            (node :: ·) := by
      rw [settle, hentry, ok_bind, hnode, ok_bind]
      rfl
    rw [hsettle]
    cases a.settle fuel (rest ++ entry.children.map fun child => (child, p.2 + 1)) with
    | error e => rfl
    | ok nodes => simp [Except.map]

/-- What the steps have made is the first part of what `settle` makes, and the
rest is what it makes of the queue. -/
theorem settle_of_passAfter {s : Pass} : ∀ {k : Nat}, a.passAfter k = .ok s → ∀ fuel,
    a.settle (k + fuel) (a.roots.map fun root => (root, 0))
      = (a.settle fuel s.queue).map (s.made ++ ·)
  | 0, h, fuel => by
      cases h
      rw [Nat.zero_add]
      cases a.settle fuel (a.roots.map fun root => (root, 0)) <;> rfl
  | k + 1, h, fuel => by
      obtain ⟨s₀, hs₀, hstep⟩ := bind_eq_ok.1 h
      rw [Nat.add_right_comm, Nat.add_assoc, settle_of_passAfter hs₀, settle_of_step hstep]

/-- With an empty queue nothing is left to be made. -/
theorem settle_of_queue_nil {s : Pass} {k : Nat} (h : a.passAfter k = .ok s)
    (hqueue : s.queue = []) : a.settle k (a.roots.map fun root => (root, 0)) = .ok s.made := by
  have hsettle := settle_of_passAfter h 0
  rw [hqueue, settle, Nat.add_zero] at hsettle
  rw [hsettle]
  exact congrArg Except.ok (List.append_nil _)

/-- A table carries a forest: the roots are the same, and what the forest says of
its loops the table says, too. -/
structure Carries (a : Table) (t : Forest) : Prop where
  roots_eq : a.roots = t.roots
  name_eq : ∀ {id : LoopId} {n : Node}, t.nodes[id]? = some n → n.name = id.text
  get?_eq : ∀ {id : LoopId} {n : Node}, t.nodes[id]? = some n → a.loops.get? id = some n.entry

end Table

/-! ## What is kept -/

namespace Forest

variable {t : Forest} {a : Table} {s : Pass}

/-- A linked node passes the check of single nodes. -/
theorem Linked.validate_eq (h : t.Linked) {id : LoopId} {n : Node} (hn : t.nodes[id]? = some n) :
    Draft.validate n = .ok n := by
  have hroot : ¬ (n.parent = none ∧ n.level ≠ 0) := fun ⟨hp, hl⟩ => hl (h.level_root hn hp)
  have hinner : ¬ (n.parent ≠ none ∧ n.level = 0) := by
    rintro ⟨hp, hl⟩
    obtain ⟨p, hp⟩ := Option.ne_none_iff_exists'.1 hp
    obtain ⟨m, -, -, hm⟩ := h.above hn hp
    omega
  have hself : ¬ (n.id ∈ n.children ∨ n.parent = some n.id) := by
    rw [h.id_eq hn, h.mem_children_iff hn hn, or_self]
    exact h.parent_ne_self hn
  rw [Draft.validate, if_neg hroot, if_neg hinner, if_neg hself]

/-- The forest has no more loops than the table that carries it. -/
theorem Linked.length_listing_le (h : t.Linked) (ha : a.Carries t) :
    t.listing.length ≤ a.loops.size := by
  have hsub : t.listing ⊆ a.loops.keys := by
    intro id hid
    obtain ⟨n, hn⟩ := h.mem_listing.1 hid
    exact OrderedMap.mem_keys.2 ⟨n.entry, ha.get?_eq hn⟩
  have hlength := (h.nodup_listing.subperm hsub).length_le
  rwa [OrderedMap.keys, List.length_map] at hlength

/-- A loop, and its children at the other end of the queue, stand for what the loop
stood for on the queue. -/
theorem Linked.perm_children (h : t.Linked) {id : LoopId} {n : Node} (hn : t.nodes[id]? = some n)
    (queue : List LoopId) :
    (id :: (queue ++ n.children).flatMap t.inside).Perm ((id :: queue).flatMap t.inside) := by
  rw [h.flatMap_inside_cons hn]
  exact (List.perm_append_comm.flatMap_right t.inside).cons id

/-- The pass is on its way through a forest. -/
structure Underway (t : Forest) (s : Pass) : Prop where
  /-- pending loops belong to the forest and have their levels -/
  pending : ∀ p ∈ s.queue, ∃ n, t.nodes[p.1]? = some n ∧ n.level = p.2
  /-- made nodes are those of the forest -/
  made : ∀ n ∈ s.made, t.nodes[n.id]? = some n
  taken_eq : s.taken = s.made.map fun n => (n.id, n.level)
  /-- what is taken and what is to come are the forest, each loop once -/
  perm : (s.made.map Node.id ++ (s.queue.map Prod.fst).flatMap t.inside).Perm t.listing

/-- At the start everything is to come. -/
theorem Linked.underway (h : t.Linked) :
    Underway t { taken := [], made := [], queue := t.roots.map fun root => (root, 0) } where
  pending := by
    intro p hp
    obtain ⟨root, hroot, rfl⟩ := List.mem_map.1 hp
    obtain ⟨n, hn, -, hl⟩ := h.exists_node_of_mem_roots hroot
    exact ⟨n, hn, hl⟩
  made := nofun
  taken_eq := rfl
  perm := by simp [listing, Function.comp_def]

namespace Underway

/-- The next step finds its loop in the table, and the node stands the check. -/
theorem exists_step (hs : Underway t s) (h : t.Linked) (ha : a.Carries t) :
    ∃ s', s.step a = .ok s' ∧ Underway t s' ∧ (s.queue = [] → s' = s) ∧
      (s.queue ≠ [] → s'.taken.length = s.taken.length + 1) := by
  obtain ⟨taken, made, queue⟩ := s
  cases queue with
  | nil => exact ⟨_, rfl, hs, fun _ => rfl, fun hne => absurd rfl hne⟩
  | cons p rest =>
    obtain ⟨id, level⟩ := p
    obtain ⟨n, hn, rfl⟩ := hs.pending (id, level) (List.mem_cons_self ..)
    have hentry : a.entry id = .ok n.entry := by rw [Table.entry, ha.get?_eq hn]
    have hbuild : (n.entry.draft id n.level).build = .ok n := by
      rw [Entry.build_draft, Node.node_entry (h.id_eq hn) (ha.name_eq hn), h.validate_eq hn]
    refine ⟨_, bind_eq_ok.2 ⟨_, hentry, bind_eq_ok.2 ⟨_, hbuild, rfl⟩⟩, ⟨?_, ?_, ?_, ?_⟩,
      nofun, fun _ => List.length_append⟩
    · intro p hp
      rcases List.mem_append.1 hp with hp | hp
      · exact hs.pending p (List.mem_cons_of_mem _ hp)
      · obtain ⟨c, hc, rfl⟩ := List.mem_map.1 hp
        obtain ⟨m, hm, -, hl⟩ := h.child hn hc
        exact ⟨m, hm, hl⟩
    · intro m hm
      rcases List.mem_append.1 hm with hm | hm
      · exact hs.made m hm
      · obtain rfl := List.mem_singleton.1 hm
        rwa [h.id_eq hn]
    · have htaken : taken = made.map fun n => (n.id, n.level) := hs.taken_eq
      rw [htaken, List.map_append, List.map_singleton, h.id_eq hn]
    · have hchildren : (n.children.map fun child => (child, n.level + 1)).map Prod.fst
          = n.children := by
        rw [List.map_map, Function.comp_def, List.map_id']
      have hmade : (made ++ [n]).map Node.id = made.map Node.id ++ [id] := by
        rw [List.map_append, List.map_singleton, h.id_eq hn]
      show ((made ++ [n]).map Node.id ++ ((rest ++ n.children.map fun child =>
        (child, n.level + 1)).map Prod.fst).flatMap t.inside).Perm t.listing
      rw [hmade, List.map_append, hchildren, List.append_assoc]
      exact ((h.perm_children hn (rest.map Prod.fst)).append_left _).trans hs.perm

theorem nodup_made (hs : Underway t s) (h : t.Linked) : (s.made.map Node.id).Nodup :=
  (hs.perm.nodup_iff.2 h.nodup_listing).sublist (List.sublist_append_left ..)

/-- No loop is taken twice. -/
theorem nodup_taken (hs : Underway t s) (h : t.Linked) : (s.taken.map Prod.fst).Nodup := by
  rw [hs.taken_eq, List.map_map]
  exact hs.nodup_made h

/-- The loops taken and those to come are as many as the forest has. -/
theorem length_taken_add (hs : Underway t s) :
    s.taken.length + ((s.queue.map Prod.fst).flatMap t.inside).length = t.listing.length := by
  rw [hs.taken_eq, List.length_map, ← hs.perm.length_eq, List.length_append, List.length_map]

/-- The pass takes no more loops than the table has. -/
theorem length_taken_le (hs : Underway t s) (h : t.Linked) (ha : a.Carries t) :
    s.taken.length ≤ a.loops.size :=
  Nat.le_trans (Nat.le.intro hs.length_taken_add) (h.length_listing_le ha)

/-- Once it has taken as many, no loop is left on the queue. -/
theorem queue_eq_nil (hs : Underway t s) (h : t.Linked) (ha : a.Carries t)
    (htaken : a.loops.size ≤ s.taken.length) : s.queue = [] := by
  have hcount := hs.length_taken_add
  have hlisting := h.length_listing_le ha
  have hnone : (s.queue.map Prod.fst).flatMap t.inside = [] :=
    List.length_eq_zero_iff.1 (by omega)
  cases hqueue : s.queue with
  | nil => rfl
  | cons p rest =>
    obtain ⟨n, hn, -⟩ := hs.pending p (hqueue ▸ List.mem_cons_self ..)
    rw [hqueue, List.map_cons, h.flatMap_inside_cons hn] at hnone
    cases hnone

theorem mem_taken_iff (hs : Underway t s) {id : LoopId} {level : Nat} :
    (id, level) ∈ s.taken ↔ ∃ n ∈ s.made, n.id = id ∧ n.level = level := by
  rw [hs.taken_eq, List.mem_map]
  simp only [Prod.mk.injEq]

/-- With an empty queue all nodes of the forest are made. -/
theorem mem_made_iff (hs : Underway t s) (h : t.Linked) (hqueue : s.queue = []) {n : Node} :
    n ∈ s.made ↔ t.nodes[n.id]? = some n := by
  refine ⟨hs.made n, fun hn => ?_⟩
  have hperm := hs.perm
  rw [hqueue, List.map_nil, List.flatMap_nil, List.append_nil] at hperm
  obtain ⟨m, hm, hid⟩ := List.mem_map.1 (hperm.mem_iff.2 (h.mem_listing.2 ⟨n, hn⟩))
  have hmn := hs.made m hm
  rw [hid, hn] at hmn
  cases hmn
  exact hm

end Underway

/-! ## Storing nodes -/

theorem getElem?_foldl_insert {id : LoopId} {n : Node} : ∀ (nodes : List Node)
    (stored : LoopMap Node), (nodes.map Node.id).Nodup →
    ((nodes.foldl (fun stored node => stored.insert node.id node) stored)[id]? = some n ↔
      n ∈ nodes ∧ n.id = id ∨ id ∉ nodes.map Node.id ∧ stored[id]? = some n)
  | [], stored, _ => by simp
  | m :: rest, stored, h => by
      rw [List.map_cons, List.nodup_cons] at h
      rw [List.foldl_cons, getElem?_foldl_insert rest _ h.2, Std.ExtTreeMap.getElem?_insert]
      by_cases hm : m.id = id
      · subst hm
        have hout : ∀ k ∈ rest, k.id ≠ m.id := fun k hk e =>
          h.1 (List.mem_map.2 ⟨k, hk, e⟩)
        constructor
        · rintro (⟨hn, e⟩ | ⟨-, hn⟩)
          · exact absurd e (hout n hn)
          · simp only [Std.ReflCmp.compare_self, if_true, Option.some.injEq] at hn
            exact Or.inl ⟨hn ▸ List.mem_cons_self .., hn ▸ rfl⟩
        · rintro (⟨hn, e⟩ | ⟨hn, -⟩)
          · rcases List.mem_cons.1 hn with rfl | hn
            · exact Or.inr ⟨h.1, by simp⟩
            · exact absurd e (hout n hn)
          · simp at hn
      · have hm' : id ≠ m.id := fun e => hm e.symm
        simp only [Std.LawfulEqOrd.compare_eq_iff_eq, hm, if_false, List.map_cons, List.mem_cons,
          not_or, hm', not_false_eq_true, true_and]
        constructor
        · rintro (⟨hn, e⟩ | hn)
          · exact Or.inl ⟨Or.inr hn, e⟩
          · exact Or.inr hn
        · rintro (⟨rfl | hn, e⟩ | hn)
          · exact absurd e hm
          · exact Or.inl ⟨hn, e⟩
          · exact Or.inr hn

/-- Nodes of different loops are all found again. -/
theorem getElem?_store {nodes : List Node} (h : (nodes.map Node.id).Nodup) {id : LoopId}
    {n : Node} : (store nodes)[id]? = some n ↔ n ∈ nodes ∧ n.id = id := by
  rw [store, getElem?_foldl_insert nodes ∅ h]
  simp

/-! ## Whole runs -/

/-- No step fails, and each takes a loop until none is left. -/
theorem Linked.exists_passAfter (h : t.Linked) (ha : a.Carries t) : ∀ k, ∃ s,
    a.passAfter k = .ok s ∧ Underway t s ∧ (s.queue = [] ∨ s.taken.length = k)
  | 0 => ⟨_, rfl, ha.roots_eq ▸ h.underway, Or.inr rfl⟩
  | k + 1 => by
      obtain ⟨s, hs, hunder, hcount⟩ := h.exists_passAfter ha k
      obtain ⟨s', hs', hunder', hidle, htakes⟩ := hunder.exists_step h ha
      refine ⟨s', bind_eq_ok.2 ⟨s, hs, hs'⟩, hunder', ?_⟩
      by_cases hqueue : s.queue = []
      · rw [hidle hqueue]
        exact Or.inl hqueue
      · exact Or.inr ((htakes hqueue).trans (congrArg (· + 1) (hcount.resolve_left hqueue)))

/-- With as many steps as the table has loops the pass is over. -/
theorem Linked.exists_passAfter_of_le (h : t.Linked) (ha : a.Carries t) {k : Nat}
    (hk : a.loops.size ≤ k) : ∃ s, a.passAfter k = .ok s ∧ Underway t s ∧ s.queue = [] := by
  obtain ⟨s, hs, hunder, hcount⟩ := h.exists_passAfter ha k
  exact ⟨s, hs, hunder, hcount.elim id fun hlength =>
    hunder.queue_eq_nil h ha (hlength.symm ▸ hk)⟩

/-- From the roots the pass settles the whole forest, also if the table
holds loops that no root leads to. -/
theorem Linked.settle_roots (h : t.Linked) (ha : a.Carries t) :
    ∃ nodes, a.settle a.loops.size (a.roots.map fun root => (root, 0)) = .ok nodes ∧
      store nodes = t.nodes := by
  obtain ⟨s, hs, hunder, hqueue⟩ := h.exists_passAfter_of_le ha (Nat.le_refl _)
  refine ⟨s.made, Table.settle_of_queue_nil hs hqueue, ?_⟩
  refine Std.ExtTreeMap.ext_getElem? fun id => Option.ext fun n => ?_
  rw [getElem?_store (hunder.nodup_made h), hunder.mem_made_iff h hqueue]
  constructor
  · rintro ⟨hn, rfl⟩
    exact hn
  · intro hn
    rw [h.id_eq hn]
    exact ⟨hn, rfl⟩

end Forest

end LoopNest
