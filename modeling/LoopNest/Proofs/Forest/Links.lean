import LoopNest.Forest.Basic
import Mathlib.Data.List.Nodup
import Mathlib.Data.List.Perm.Subperm

/-!
LoopNest.Proofs.Forest.Links — forests whose links agree.

A node names its parent, lists its children and carries a level.  A forest
is *linked* when the three say the same thing everywhere (`Linked`).  Levels
then fall by one on the way to a root, which rules out circles, and every
induction below runs along them.

* `Linked.fromRoots`, `Linked.fromLeaves` — induction down and up a forest;
* `Linked.level_lt_size` — the bound behind every count of steps;
* `inside` — a loop and all loops inside it, by recursion, outer before
  inner and earlier before later, with its equation `Linked.inside_eq`;
* `listing` — the whole forest that way: every loop of it exactly once
  (`Linked.nodup_listing`, `Linked.mem_listing`).
-/

namespace LoopNest

namespace Forest

/-- Parents, children, levels and roots of a forest agree. -/
structure Linked (t : Forest) : Prop where
  /-- a node is stored under its own id -/
  id_eq : ∀ {id : LoopId} {n : Node}, t.nodes[id]? = some n → n.id = id
  roots_nodup : t.roots.Nodup
  mem_roots : ∀ {id : LoopId}, id ∈ t.roots ↔ ∃ n : Node, t.nodes[id]? = some n ∧ n.parent = none
  level_root : ∀ {id : LoopId} {n : Node}, t.nodes[id]? = some n → n.parent = none → n.level = 0
  above : ∀ {id p : LoopId} {n : Node}, t.nodes[id]? = some n → n.parent = some p →
    ∃ m : Node, t.nodes[p]? = some m ∧ id ∈ m.children ∧ n.level = m.level + 1
  below : ∀ {id c : LoopId} {n : Node}, t.nodes[id]? = some n → c ∈ n.children →
    ∃ m : Node, t.nodes[c]? = some m ∧ m.parent = some id
  children_nodup : ∀ {id : LoopId} {n : Node}, t.nodes[id]? = some n → n.children.Nodup

/-- The loops directly inside a loop; an absent loop has none. -/
def childrenOf (t : Forest) (id : LoopId) : List LoopId :=
  (t.nodes[id]?.map Node.children).getD []

/-- A loop and the loops inside it, down to `depth` levels. -/
def insideTo (t : Forest) : Nat → LoopId → List LoopId
  | 0, _ => []
  | depth + 1, id => id :: (t.childrenOf id).flatMap (t.insideTo depth)

/-- A loop and all loops inside it.  No loop lies deeper than the forest has
loops. -/
def inside (t : Forest) (id : LoopId) : List LoopId := t.insideTo t.size id

/-- All loops, root after root. -/
def listing (t : Forest) : List LoopId := t.roots.flatMap t.inside

theorem childrenOf_eq {t : Forest} {id : LoopId} {n : Node} (hn : t.nodes[id]? = some n) :
    t.childrenOf id = n.children := by
  simp [childrenOf, hn]

theorem mem_keys_iff {t : Forest} {id : LoopId} :
    id ∈ t.nodes.keys ↔ ∃ n, t.nodes[id]? = some n := by
  rw [Std.ExtTreeMap.mem_keys, Std.ExtTreeMap.mem_iff_isSome_getElem?, Option.isSome_iff_exists]

namespace Linked

variable {t : Forest}

/-! ## Levels -/

/-- A child names its lister and lies one level deeper. -/
theorem child (h : t.Linked) {id c : LoopId} {n : Node} (hn : t.nodes[id]? = some n)
    (hc : c ∈ n.children) :
    ∃ m : Node, t.nodes[c]? = some m ∧ m.parent = some id ∧ m.level = n.level + 1 := by
  obtain ⟨m, hm, hp⟩ := h.below hn hc
  obtain ⟨n', hn', -, hl⟩ := h.above hm hp
  rw [hn] at hn'
  cases hn'
  exact ⟨m, hm, hp, hl⟩

theorem mem_children_iff (h : t.Linked) {id p : LoopId} {n m : Node}
    (hn : t.nodes[id]? = some n) (hm : t.nodes[p]? = some m) :
    id ∈ m.children ↔ n.parent = some p := by
  constructor
  · intro hid
    obtain ⟨n', hn', hp⟩ := h.below hm hid
    rw [hn] at hn'
    cases hn'
    exact hp
  · intro hp
    obtain ⟨m', hm', hid, -⟩ := h.above hn hp
    rw [hm] at hm'
    cases hm'
    exact hid

theorem mem_roots_iff (h : t.Linked) {id : LoopId} {n : Node} (hn : t.nodes[id]? = some n) :
    id ∈ t.roots ↔ n.parent = none := by
  rw [h.mem_roots, hn]
  simp

theorem parent_ne_self (h : t.Linked) {id : LoopId} {n : Node} (hn : t.nodes[id]? = some n) :
    n.parent ≠ some id := by
  intro hp
  obtain ⟨m, hm, -, hl⟩ := h.above hn hp
  rw [hn] at hm
  cases hm
  omega

/-- Induction from the roots downwards. -/
theorem fromRoots (h : t.Linked) {motive : LoopId → Prop}
    (root : ∀ id n, t.nodes[id]? = some n → n.parent = none → motive id)
    (inner : ∀ id n p m, t.nodes[id]? = some n → n.parent = some p →
      t.nodes[p]? = some m → motive p → motive id)
    {id : LoopId} {n : Node} (hn : t.nodes[id]? = some n) : motive id := by
  induction hl : n.level generalizing id n with
  | zero =>
    cases hp : n.parent with
    | none => exact root id n hn hp
    | some p =>
      obtain ⟨m, -, -, hm⟩ := h.above hn hp
      omega
  | succ l ih =>
    cases hp : n.parent with
    | none => exact root id n hn hp
    | some p =>
      obtain ⟨m, hm, -, hlm⟩ := h.above hn hp
      exact inner id n p m hn hp hm (ih hm (by omega))

/-- On the way up from a loop there is a loop at every level. -/
theorem exists_level (h : t.Linked) {id : LoopId} {n : Node} (hn : t.nodes[id]? = some n) :
    ∀ l ≤ n.level, ∃ (x : LoopId) (m : Node), t.nodes[x]? = some m ∧ m.level = l := by
  intro l hl
  induction hd : n.level - l generalizing id n with
  | zero => exact ⟨id, n, hn, by omega⟩
  | succ d ih =>
    cases hp : n.parent with
    | none =>
      have := h.level_root hn hp
      omega
    | some p =>
      obtain ⟨m, hm, -, hlm⟩ := h.above hn hp
      exact ih hm (by omega) (by omega)

/-- Levels are bounded by the number of loops. -/
theorem level_lt_size (h : t.Linked) {id : LoopId} {n : Node} (hn : t.nodes[id]? = some n) :
    n.level < t.size := by
  have hsub : List.range (n.level + 1) ⊆ t.nodes.toList.map fun p => p.2.level := by
    intro l hl
    obtain ⟨x, m, hm, rfl⟩ := h.exists_level hn l (by simpa [Nat.lt_succ_iff] using hl)
    exact List.mem_map.2 ⟨(x, m), Std.ExtTreeMap.mem_toList_iff_getElem?_eq_some.2 hm, rfl⟩
  have hlen := (List.nodup_range.subperm hsub).length_le
  simpa [size, Nat.succ_le_iff] using hlen

/-- Induction from the innermost loops upwards. -/
theorem fromLeaves (h : t.Linked) {motive : LoopId → Prop}
    (step : ∀ id n, t.nodes[id]? = some n → (∀ c ∈ n.children, motive c) → motive id)
    {id : LoopId} {n : Node} (hn : t.nodes[id]? = some n) : motive id := by
  induction hd : t.size - n.level using Nat.strongRecOn generalizing id n with
  | _ d ih =>
    refine step id n hn fun c hc => ?_
    obtain ⟨m, hm, -, hl⟩ := h.child hn hc
    have := h.level_lt_size hm
    exact ih (t.size - m.level) (by omega) hm rfl

/-! ## The loops inside a loop -/

theorem insideTo_succ (h : t.Linked) (depth : Nat) {id : LoopId} {n : Node}
    (hn : t.nodes[id]? = some n) (hd : t.size ≤ n.level + depth) :
    t.insideTo (depth + 1) id = t.insideTo depth id := by
  induction depth generalizing id n with
  | zero =>
    have := h.level_lt_size hn
    omega
  | succ depth ih =>
    rw [insideTo, insideTo, childrenOf_eq hn]
    congr 1
    refine List.flatMap_congr fun c hc => ?_
    obtain ⟨m, hm, -, hl⟩ := h.child hn hc
    exact ih hm (by omega)

/-- A loop is followed by what is inside its children, child after child. -/
theorem inside_eq (h : t.Linked) {id : LoopId} {n : Node} (hn : t.nodes[id]? = some n) :
    t.inside id = id :: n.children.flatMap t.inside := by
  obtain ⟨s, hs⟩ : ∃ s, t.size = s + 1 := ⟨t.size - 1, by have := h.level_lt_size hn; omega⟩
  rw [inside, hs, insideTo, childrenOf_eq hn]
  congr 1
  refine List.flatMap_congr fun c hc => ?_
  obtain ⟨m, hm, -, hl⟩ := h.child hn hc
  rw [inside, hs, h.insideTo_succ s hm (by omega)]

/-- What is inside some loops, the first of them replaced by its children. -/
theorem flatMap_inside_cons (h : t.Linked) {id : LoopId} {n : Node} (hn : t.nodes[id]? = some n)
    (rest : List LoopId) :
    (id :: rest).flatMap t.inside = id :: (n.children ++ rest).flatMap t.inside := by
  rw [List.flatMap_cons, h.inside_eq hn, List.flatMap_append, List.cons_append]

theorem self_mem_inside (h : t.Linked) {id : LoopId} {n : Node} (hn : t.nodes[id]? = some n) :
    id ∈ t.inside id := by
  simp [h.inside_eq hn]

/-- Every loop inside a loop is there. -/
theorem exists_node_of_mem_inside (h : t.Linked) {a x : LoopId} {n : Node}
    (hn : t.nodes[a]? = some n) (hx : x ∈ t.inside a) : ∃ m : Node, t.nodes[x]? = some m := by
  revert hx
  refine h.fromLeaves (motive := fun a => x ∈ t.inside a → ∃ m : Node, t.nodes[x]? = some m) ?_ hn
  intro a n hn ih hx
  rw [h.inside_eq hn, List.mem_cons, List.mem_flatMap] at hx
  rcases hx with rfl | ⟨c, hc, hx⟩
  · exact ⟨n, hn⟩
  · exact ih c hc hx

/-- A loop lies inside another exactly if it is the other or its parent lies
inside the other. -/
theorem mem_inside_iff (h : t.Linked) {a x : LoopId} {n m : Node} (hn : t.nodes[a]? = some n)
    (hm : t.nodes[x]? = some m) :
    x ∈ t.inside a ↔ x = a ∨ ∃ p, m.parent = some p ∧ p ∈ t.inside a := by
  refine h.fromLeaves
    (motive := fun a => x ∈ t.inside a ↔ x = a ∨ ∃ p, m.parent = some p ∧ p ∈ t.inside a) ?_ hn
  intro a n hn ih
  constructor
  · intro hx
    rw [h.inside_eq hn, List.mem_cons, List.mem_flatMap] at hx
    rcases hx with hx | ⟨c, hc, hx⟩
    · exact Or.inl hx
    · rcases (ih c hc).1 hx with rfl | ⟨p, hp, hpc⟩
      · obtain ⟨m', hm', hp, -⟩ := h.child hn hc
        rw [hm] at hm'
        cases hm'
        exact Or.inr ⟨a, hp, h.self_mem_inside hn⟩
      · refine Or.inr ⟨p, hp, ?_⟩
        rw [h.inside_eq hn]
        exact List.mem_cons_of_mem _ (List.mem_flatMap.2 ⟨c, hc, hpc⟩)
  · rintro (rfl | ⟨p, hp, hpa⟩)
    · exact h.self_mem_inside hn
    · rw [h.inside_eq hn, List.mem_cons, List.mem_flatMap] at hpa ⊢
      rcases hpa with rfl | ⟨c, hc, hpc⟩
      · obtain ⟨n', hn', hx, -⟩ := h.above hm hp
        rw [hn] at hn'
        cases hn'
        exact Or.inr ⟨x, hx, h.self_mem_inside hm⟩
      · exact Or.inr ⟨c, hc, (ih c hc).2 (Or.inr ⟨p, hp, hpc⟩)⟩

/-- Nothing inside a loop lies at a lesser level. -/
theorem level_le_of_mem_inside (h : t.Linked) {a x : LoopId} {n m : Node}
    (hn : t.nodes[a]? = some n) (hm : t.nodes[x]? = some m) (hx : x ∈ t.inside a) :
    n.level ≤ m.level := by
  have step : ∀ m, t.nodes[x]? = some m → n.level ≤ m.level := by
    revert hx
    refine h.fromRoots (motive := fun x => x ∈ t.inside a →
      ∀ m, t.nodes[x]? = some m → n.level ≤ m.level) ?_ ?_ hm
    · intro x m hm hp hx m' hm'
      rw [hm] at hm'
      cases hm'
      simp only [h.mem_inside_iff hn hm, hp, reduceCtorEq, false_and, exists_false,
        or_false] at hx
      rw [hx, hn] at hm
      cases hm
      exact Nat.le_refl _
    · intro x m p k hm hp hk ih hx m' hm'
      rw [hm] at hm'
      cases hm'
      simp only [h.mem_inside_iff hn hm, hp, Option.some.injEq, exists_eq_left'] at hx
      rcases hx with rfl | hpa
      · rw [hn] at hm
        cases hm
        exact Nat.le_refl _
      · obtain ⟨k', hk', -, hl⟩ := h.above hm hp
        have := ih hpa k' hk'
        omega
  exact step m hm

/-- Two loops at one level have nothing in common. -/
theorem eq_of_mem_inside (h : t.Linked) {a b x : LoopId} {n m k : Node}
    (hn : t.nodes[a]? = some n) (hm : t.nodes[b]? = some m) (hl : n.level = m.level)
    (hk : t.nodes[x]? = some k) (ha : x ∈ t.inside a) (hb : x ∈ t.inside b) : a = b := by
  revert ha hb
  refine h.fromRoots (motive := fun x => x ∈ t.inside a → x ∈ t.inside b → a = b) ?_ ?_ hk
  · intro x k hk hr ha hb
    simp only [h.mem_inside_iff hn hk, hr, reduceCtorEq, false_and, exists_false, or_false] at ha
    simp only [h.mem_inside_iff hm hk, hr, reduceCtorEq, false_and, exists_false, or_false] at hb
    rw [← ha, ← hb]
  · intro x k p q hk hp hq ih ha hb
    obtain ⟨q', hq', -, hkq⟩ := h.above hk hp
    rw [hq] at hq'
    cases hq'
    rw [h.mem_inside_iff hn hk] at ha
    rw [h.mem_inside_iff hm hk] at hb
    simp only [hp, Option.some.injEq, exists_eq_left'] at ha hb
    -- the mixed cases are out: one loop would lie above its own level
    rcases ha with rfl | ha <;> rcases hb with rfl | hb
    · rfl
    · rw [hk] at hn
      cases hn
      have := h.level_le_of_mem_inside hm hq hb
      omega
    · rw [hk] at hm
      cases hm
      have := h.level_le_of_mem_inside hn hq ha
      omega
    · exact ih ha hb

/-- Loops at one level, each with what is inside it: no loop comes twice. -/
theorem nodup_flatMap_inside (h : t.Linked) {ids : List LoopId} (hids : ids.Nodup) (l : Nat)
    (hlevel : ∀ id ∈ ids, ∃ n, t.nodes[id]? = some n ∧ n.level = l)
    (hinside : ∀ id ∈ ids, (t.inside id).Nodup) : (ids.flatMap t.inside).Nodup := by
  refine List.nodup_flatMap.2 ⟨hinside, hids.imp_of_mem fun {a b} ha hb hab => ?_⟩
  intro x hxa hxb
  obtain ⟨n, hn, hl⟩ := hlevel a ha
  obtain ⟨m, hm, hl'⟩ := hlevel b hb
  obtain ⟨k, hk⟩ := h.exists_node_of_mem_inside hn hxa
  exact hab (h.eq_of_mem_inside hn hm (hl.trans hl'.symm) hk hxa hxb)

theorem nodup_inside (h : t.Linked) {id : LoopId} {n : Node} (hn : t.nodes[id]? = some n) :
    (t.inside id).Nodup := by
  refine h.fromLeaves (motive := fun id => (t.inside id).Nodup) ?_ hn
  intro id n hn ih
  have hlevel : ∀ c ∈ n.children, ∃ m : Node, t.nodes[c]? = some m ∧ m.level = n.level + 1 := by
    intro c hc
    obtain ⟨m, hm, -, hl⟩ := h.child hn hc
    exact ⟨m, hm, hl⟩
  rw [h.inside_eq hn, List.nodup_cons]
  refine ⟨fun hid => ?_, h.nodup_flatMap_inside (h.children_nodup hn) _ hlevel ih⟩
  obtain ⟨c, hc, hid⟩ := List.mem_flatMap.1 hid
  obtain ⟨m, hm, hl⟩ := hlevel c hc
  have := h.level_le_of_mem_inside hm hn hid
  omega

/-! ## The whole forest -/

theorem exists_node_of_mem_roots (h : t.Linked) {id : LoopId} (hid : id ∈ t.roots) :
    ∃ n, t.nodes[id]? = some n ∧ n.parent = none ∧ n.level = 0 := by
  obtain ⟨n, hn, hp⟩ := h.mem_roots.1 hid
  exact ⟨n, hn, hp, h.level_root hn hp⟩

/-- No loop is listed twice. -/
theorem nodup_listing (h : t.Linked) : t.listing.Nodup := by
  refine h.nodup_flatMap_inside h.roots_nodup 0 (fun r hr => ?_) fun r hr => ?_
  · obtain ⟨n, hn, -, hl⟩ := h.exists_node_of_mem_roots hr
    exact ⟨n, hn, hl⟩
  · obtain ⟨n, hn, -⟩ := h.exists_node_of_mem_roots hr
    exact h.nodup_inside hn

/-- The listing names exactly the loops that are there. -/
theorem mem_listing (h : t.Linked) {id : LoopId} :
    id ∈ t.listing ↔ ∃ n, t.nodes[id]? = some n := by
  constructor
  · intro hid
    obtain ⟨r, hr, hid⟩ := List.mem_flatMap.1 hid
    obtain ⟨n, hn, -⟩ := h.exists_node_of_mem_roots hr
    exact h.exists_node_of_mem_inside hn hid
  · rintro ⟨n, hn⟩
    refine h.fromRoots (motive := fun id => id ∈ t.listing) ?_ ?_ hn
    · intro id n hn hp
      exact List.mem_flatMap.2 ⟨id, h.mem_roots.2 ⟨n, hn, hp⟩, h.self_mem_inside hn⟩
    · intro id n p m hn hp hm ih
      obtain ⟨r, hr, hpr⟩ := List.mem_flatMap.1 ih
      obtain ⟨k, hk, -⟩ := h.exists_node_of_mem_roots hr
      exact List.mem_flatMap.2 ⟨r, hr, (h.mem_inside_iff hk hn).2 (Or.inr ⟨p, hp, hpr⟩)⟩

/-- The listing is an arrangement of the stored ids. -/
theorem listing_perm_keys (h : t.Linked) : t.listing.Perm t.nodes.keys := by
  refine (List.perm_ext_iff_of_nodup h.nodup_listing Std.ExtTreeMap.nodup_keys).2 fun id => ?_
  rw [h.mem_listing, mem_keys_iff]

theorem length_listing (h : t.Linked) : t.listing.length = t.size := by
  rw [h.listing_perm_keys.length_eq, Std.ExtTreeMap.length_keys, size]

/-- There is no more inside a loop than in the forest. -/
theorem length_inside_le (h : t.Linked) {id : LoopId} {n : Node} (hn : t.nodes[id]? = some n) :
    (t.inside id).length ≤ t.size := by
  rw [← h.length_listing]
  refine ((h.nodup_inside hn).subperm fun x hx => ?_).length_le
  exact h.mem_listing.2 (h.exists_node_of_mem_inside hn hx)

end Linked

end Forest

end LoopNest
