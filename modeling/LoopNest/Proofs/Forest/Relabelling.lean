import LoopNest.Proofs.Forest.Walks
import Mathlib.Algebra.Group.End
import Mathlib.Logic.Equiv.Basic

/-!
LoopNest.Proofs.Forest.Relabelling — loops permuted among their places.

A place in a forest is what stays when loops change about: its parent and
children as places, its computations and its level.  Under a permutation
`π` the loop `π id` takes the place where `id` was (`Forest.relabel`), and
each loop keeps its name and bounds.

* `Linked.relabel`, `Sound.relabel` — what agreed still agrees;
* `Linked.inside_relabel`, `Linked.listing_relabel` — listings are renamed,
  loop by loop;
* `relabel_one`, `relabel_mul` — permutations act.
-/

namespace LoopNest

/-- A loop at the place of a node, the neighbours of the place renamed. -/
def Node.atPlace (π : Equiv.Perm LoopId) (own place : Node) : Node :=
  own.relocated (place.parent.map π) (place.children.map π) place.computations place.level

theorem Node.parent_eq_none_of_atPlace {π : Equiv.Perm LoopId} {own place : Node}
    (h : (own.atPlace π place).parent = none) : place.parent = none :=
  Option.map_eq_none_iff.1 h

namespace Forest

/-- The forest in which the loop `π id` stands where `id` stood. -/
def relabel (π : Equiv.Perm LoopId) (t : Forest) : Forest where
  roots := t.roots.map π
  nodes := t.nodes.map fun id own => own.atPlace π ((t.nodes[π.symm id]?).getD own)
  computations := t.computations
  owners := t.owners.map fun _ owner => π owner
  ranks := t.ranks

/-- A permutation that leads neither into the forest nor out of it. -/
def Permutes (π : Equiv.Perm LoopId) (t : Forest) : Prop :=
  ∀ id, t.contains (π id) = t.contains id

variable {t : Forest} {π σ : Equiv.Perm LoopId}

theorem contains_eq_true_iff {id : LoopId} :
    t.contains id = true ↔ ∃ n, t.nodes[id]? = some n := by
  rw [contains, Std.ExtTreeMap.contains_eq_isSome_getElem?, Option.isSome_iff_exists]

@[simp] theorem contains_relabel (id : LoopId) : (t.relabel π).contains id = t.contains id := by
  simp [contains, relabel]

namespace Permutes

theorem exists_node (h : Permutes π t) {id : LoopId} {n : Node} (hn : t.nodes[id]? = some n) :
    ∃ m, t.nodes[π id]? = some m := by
  rw [← contains_eq_true_iff, h id, contains_eq_true_iff]
  exact ⟨n, hn⟩

theorem symm (h : Permutes π t) : Permutes π.symm t := by
  intro id
  rw [← h (π.symm id), Equiv.apply_symm_apply]

theorem mul (hσ : Permutes σ t) (hπ : Permutes π t) : Permutes (σ * π) t := by
  intro id
  rw [Equiv.Perm.mul_apply, hσ, hπ]

theorem relabel (h : Permutes σ t) : Permutes σ (t.relabel π) := by
  intro id
  rw [contains_relabel, contains_relabel, h]

theorem swap {a b : LoopId} (ha : t.contains a = true) (hb : t.contains b = true) :
    Permutes (Equiv.swap a b) t := by
  intro id
  rw [Equiv.swap_apply_def]
  by_cases hia : id = a
  · rw [if_pos hia, hia, ha, hb]
  · by_cases hib : id = b
    · rw [if_neg hia, if_pos hib, hib, ha, hb]
    · rw [if_neg hia, if_neg hib]

end Permutes

/-! ## Nodes -/

/-- The node of a loop after a permutation: its own head at the place from
which it came. -/
theorem nodes_relabel (h : Permutes π t) {id : LoopId} {n : Node} :
    (t.relabel π).nodes[id]? = some n ↔ ∃ own place,
      t.nodes[id]? = some own ∧ t.nodes[π.symm id]? = some place ∧ n = own.atPlace π place := by
  show (t.nodes.map fun id own => own.atPlace π ((t.nodes[π.symm id]?).getD own))[id]? = some n ↔ _
  rw [Std.ExtTreeMap.getElem?_map, Option.map_eq_some_iff]
  constructor
  · rintro ⟨own, hown, rfl⟩
    obtain ⟨place, hplace⟩ := h.symm.exists_node hown
    exact ⟨own, place, hown, hplace, by rw [hplace, Option.getD_some]⟩
  · rintro ⟨own, place, hown, hplace, rfl⟩
    exact ⟨own, hown, by rw [hplace, Option.getD_some]⟩

/-- Where a place is found after a permutation. -/
theorem exists_nodes_relabel (h : Permutes π t) {id : LoopId} {place : Node}
    (hplace : t.nodes[id]? = some place) :
    ∃ own, t.nodes[π id]? = some own ∧
      (t.relabel π).nodes[π id]? = some (own.atPlace π place) := by
  obtain ⟨own, hown⟩ := h.exists_node hplace
  refine ⟨own, hown, (nodes_relabel h).2 ⟨own, place, hown, ?_, rfl⟩⟩
  rw [Equiv.symm_apply_apply, hplace]

theorem nodes_ext {m k : LoopMap Node}
    (h : ∀ (id : LoopId) (n : Node), m[id]? = some n ↔ k[id]? = some n) : m = k :=
  Std.ExtTreeMap.ext_getElem? fun id => Option.ext fun n => h id n

theorem Linked.relabel (h : t.Linked) (hπ : Permutes π t) : (t.relabel π).Linked where
  id_eq := by
    intro id n hn
    obtain ⟨own, place, hown, -, rfl⟩ := (nodes_relabel hπ).1 hn
    show own.id = id
    exact h.id_eq hown
  roots_nodup := h.roots_nodup.map π.injective
  mem_roots := by
    intro id
    constructor
    · intro hid
      obtain ⟨r, hr, rfl⟩ := List.mem_map.1 hid
      obtain ⟨place, hplace, hp⟩ := h.mem_roots.1 hr
      obtain ⟨own, -, hnew⟩ := exists_nodes_relabel hπ hplace
      exact ⟨_, hnew, by simp [Node.atPlace, Node.relocated, hp]⟩
    · rintro ⟨n, hn, hp⟩
      obtain ⟨own, place, -, hplace, rfl⟩ := (nodes_relabel hπ).1 hn
      have hroot : π.symm id ∈ t.roots :=
        h.mem_roots.2 ⟨place, hplace, Node.parent_eq_none_of_atPlace hp⟩
      exact List.mem_map.2 ⟨_, hroot, π.apply_symm_apply id⟩
  level_root := by
    intro id n hn hp
    obtain ⟨own, place, -, hplace, rfl⟩ := (nodes_relabel hπ).1 hn
    show place.level = 0
    exact h.level_root hplace (Node.parent_eq_none_of_atPlace hp)
  above := by
    intro id p n hn hp
    obtain ⟨own, place, -, hplace, rfl⟩ := (nodes_relabel hπ).1 hn
    obtain ⟨q, hq, rfl⟩ := Option.map_eq_some_iff.1 hp
    obtain ⟨m, hm, hmem, hl⟩ := h.above hplace hq
    obtain ⟨own', -, hnew⟩ := exists_nodes_relabel hπ hm
    exact ⟨_, hnew, List.mem_map.2 ⟨_, hmem, π.apply_symm_apply id⟩, hl⟩
  below := by
    intro id c n hn hc
    obtain ⟨own, place, -, hplace, rfl⟩ := (nodes_relabel hπ).1 hn
    obtain ⟨d, hd, rfl⟩ := List.mem_map.1 hc
    obtain ⟨m, hm, hp⟩ := h.below hplace hd
    obtain ⟨own', -, hnew⟩ := exists_nodes_relabel hπ hm
    exact ⟨_, hnew, by simp [Node.atPlace, Node.relocated, hp]⟩
  children_nodup := by
    intro id n hn
    obtain ⟨own, place, -, hplace, rfl⟩ := (nodes_relabel hπ).1 hn
    exact (h.children_nodup hplace).map π.injective

/-! ## Listings -/

theorem Linked.inside_relabel (h : t.Linked) (hπ : Permutes π t) {id : LoopId} {n : Node}
    (hn : t.nodes[id]? = some n) : (t.relabel π).inside (π id) = (t.inside id).map π := by
  refine h.fromLeaves (motive := fun id => (t.relabel π).inside (π id) = (t.inside id).map π)
    ?_ hn
  intro id n hn ih
  obtain ⟨own, -, hnew⟩ := exists_nodes_relabel hπ hn
  rw [(h.relabel hπ).inside_eq hnew, h.inside_eq hn, List.map_cons, List.map_flatMap]
  congr 1
  show (n.children.map π).flatMap (t.relabel π).inside = _
  rw [List.flatMap_map]
  exact List.flatMap_congr ih

theorem Linked.listing_relabel (h : t.Linked) (hπ : Permutes π t) :
    (t.relabel π).listing = t.listing.map π := by
  show (t.roots.map π).flatMap (t.relabel π).inside = _
  rw [listing, List.flatMap_map, List.map_flatMap]
  refine List.flatMap_congr fun r hr => ?_
  obtain ⟨n, hn, -⟩ := h.exists_node_of_mem_roots hr
  exact h.inside_relabel hπ hn

theorem computationsOf_relabel (hπ : Permutes π t) (id : LoopId) :
    (t.relabel π).computationsOf (π id) = t.computationsOf id := by
  cases hn : t.nodes[id]? with
  | some n =>
    obtain ⟨own, -, hnew⟩ := exists_nodes_relabel hπ hn
    rw [computationsOf_eq hnew, computationsOf_eq hn]
    rfl
  | none =>
    have hnew : (t.relabel π).nodes[π id]? = none := by
      refine Option.eq_none_iff_forall_ne_some.2 fun m hm => ?_
      obtain ⟨own, place, -, hplace, -⟩ := (nodes_relabel hπ).1 hm
      rw [Equiv.symm_apply_apply, hn] at hplace
      cases hplace
    rw [computationsOf, computationsOf, hnew, hn]

theorem held_relabel (hπ : Permutes π t) (ids : List LoopId) :
    (t.relabel π).held (ids.map π) = (t.held ids).map fun p => (π p.1, p.2) := by
  rw [held, held, List.flatMap_map, List.map_flatMap]
  refine List.flatMap_congr fun id _ => ?_
  rw [computationsOf_relabel hπ, List.map_map]
  rfl

/-! ## Indices -/

/-- Owners are given alike when all loops are renamed. -/
theorem claim_map (f : LoopId → LoopId) : ∀ (held : List (LoopId × String))
    (owners given : NameMap LoopId), claim owners held = .ok given →
      claim (owners.map fun _ owner => f owner) (held.map fun p => (f p.1, p.2))
        = .ok (given.map fun _ owner => f owner)
  | [], owners, given, h => by
      cases h
      rfl
  | (id, c) :: rest, owners, given, h => by
      cases hc : owners[c]? with
      | some owner => simp [claim, hc] at h
      | none =>
        simp only [claim, hc] at h
        have hinsert : ((owners.insert c id).map fun _ owner => f owner)
            = (owners.map fun _ owner => f owner).insert c (f id) := by
          refine Std.ExtTreeMap.ext_getElem? fun d => ?_
          rw [Std.ExtTreeMap.getElem?_map, Std.ExtTreeMap.getElem?_insert,
            Std.ExtTreeMap.getElem?_insert, Std.ExtTreeMap.getElem?_map]
          split <;> rfl
        have hmap : (owners.map fun _ owner => f owner)[c]? = none := by
          rw [Std.ExtTreeMap.getElem?_map, hc]
          rfl
        rw [List.map_cons, claim, hmap]
        simp only
        rw [← hinsert]
        exact claim_map f rest _ given h

/-- A permutation of its loops keeps a forest sound: its indices are those
that it would get afresh. -/
theorem Sound.relabel (h : t.Sound) (hπ : Permutes π t) : (t.relabel π).Sound where
  toLinked := h.toLinked.relabel hπ
  named := by
    intro id n hn
    obtain ⟨own, place, hown, -, rfl⟩ := (nodes_relabel hπ).1 hn
    show own.name = id.text
    exact h.named hown
  indexed := by
    obtain ⟨hcomputations, howners, hranks⟩ := h.indices_eq
    have hlisting := h.toLinked.listing_relabel hπ
    have hheld := held_relabel hπ t.listing
    have hnew : (t.relabel π).listing.flatMap (t.relabel π).computationsOf = t.computations := by
      rw [hlisting, List.flatMap_map, hcomputations]
      exact List.flatMap_congr fun id _ => computationsOf_relabel hπ id
    have hclaim : claim ∅ ((t.held t.listing).map fun p => (π p.1, p.2))
        = .ok (t.relabel π).owners := by
      have hempty : (∅ : NameMap LoopId).map (fun _ owner => π owner) = ∅ := rfl
      rw [← hempty]
      exact claim_map π _ ∅ t.owners howners
    rw [(h.toLinked.relabel hπ).indexed_eq, hnew, hlisting, hheld, hclaim, ok_bind, ← hranks]
    rfl

/-! ## Permutations act -/

theorem relabel_one (t : Forest) : t.relabel 1 = t := by
  have hnodes : (t.relabel 1).nodes = t.nodes := by
    refine nodes_ext fun id n => ?_
    rw [nodes_relabel fun _ => rfl]
    constructor
    · rintro ⟨own, place, hown, hplace, rfl⟩
      rw [show (1 : Equiv.Perm LoopId).symm id = id from rfl, hown] at hplace
      cases hplace
      simpa [Node.atPlace, Node.relocated] using hown
    · intro hn
      exact ⟨n, n, hn, hn, by simp [Node.atPlace, Node.relocated]⟩
  have howners : (t.relabel 1).owners = t.owners :=
    Std.ExtTreeMap.ext_getElem? fun c => by simp [relabel]
  have hroots : (t.relabel 1).roots = t.roots := by simp [relabel]
  cases t
  simp_all [relabel]

theorem relabel_mul (hσ : Permutes σ t) (hπ : Permutes π t) :
    t.relabel (σ * π) = (t.relabel π).relabel σ := by
  have hnodes : (t.relabel (σ * π)).nodes = ((t.relabel π).relabel σ).nodes := by
    refine nodes_ext fun id n => ?_
    rw [nodes_relabel (hσ.mul hπ), nodes_relabel hσ.relabel]
    constructor
    · rintro ⟨own, place, hown, hplace, rfl⟩
      have hplace : t.nodes[π.symm (σ.symm id)]? = some place := hplace
      -- the loop in between, at both of its places
      obtain ⟨before, hbefore⟩ := hπ.symm.exists_node hown
      obtain ⟨mid, hmid⟩ := hσ.symm.exists_node hown
      refine ⟨own.atPlace π before, mid.atPlace π place, ?_, ?_, ?_⟩
      · exact (nodes_relabel hπ).2 ⟨own, before, hown, hbefore, rfl⟩
      · exact (nodes_relabel hπ).2 ⟨mid, place, hmid, hplace, rfl⟩
      · simp [Node.atPlace, Node.relocated, Function.comp_def]
    · rintro ⟨own', place', hown', hplace', rfl⟩
      obtain ⟨own, before, hown, -, rfl⟩ := (nodes_relabel hπ).1 hown'
      obtain ⟨mid, place, -, hplace, rfl⟩ := (nodes_relabel hπ).1 hplace'
      refine ⟨own, place, hown, ?_, ?_⟩
      · exact hplace
      · simp [Node.atPlace, Node.relocated, Function.comp_def]
  have howners : (t.relabel (σ * π)).owners = ((t.relabel π).relabel σ).owners := by
    refine Std.ExtTreeMap.ext_getElem? fun c => ?_
    simp [relabel, Function.comp_def]
  have hroots : (t.relabel (σ * π)).roots = ((t.relabel π).relabel σ).roots := by
    simp [relabel, Function.comp_def]
  simp only [relabel, mk.injEq] at hnodes howners hroots ⊢
  exact ⟨hroots, hnodes, trivial, howners, trivial⟩

end Forest

end LoopNest
