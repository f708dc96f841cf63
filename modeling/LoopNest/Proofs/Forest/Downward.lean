import LoopNest.Proofs.Forest.Lookup
import LoopNest.Proofs.Forest.Reachable

/-!
LoopNest.Proofs.Forest.Downward — what lies inside a loop, child by child.

A walk keeps one stack for all that is still to come and knows nothing of
the answers for single children.  In a forest that occurs, what it answers
for a loop is nevertheless the loop followed by what it answers for each
child, in the order in which the children are stored, and likewise for
computations (`Reachable.walks_unfold`).

* `Linked.mapM_preorder`, `Linked.mapM_subtreeComputations` — the answers for
  several loops;
* `Sound.nodup_subtreeComputations` — no computation comes twice.
-/

namespace LoopNest

namespace Forest

variable {t : Forest}

namespace Linked

theorem mapM_preorder (h : t.Linked) {ids : List LoopId}
    (hids : ∀ id ∈ ids, ∃ n, t.nodes[id]? = some n) :
    ids.mapM t.preorder = .ok (ids.map t.inside) := by
  refine mapM_eq_ok fun id hid => ?_
  obtain ⟨n, hn⟩ := hids id hid
  exact h.preorder_eq hn

theorem mapM_subtreeComputations (h : t.Linked) {ids : List LoopId}
    (hids : ∀ id ∈ ids, ∃ n, t.nodes[id]? = some n) :
    ids.mapM t.subtreeComputations
      = .ok (ids.map fun id => (t.inside id).flatMap t.computationsOf) := by
  refine mapM_eq_ok fun id hid => ?_
  obtain ⟨n, hn⟩ := hids id hid
  exact h.subtreeComputations_eq hn

/-- The walk from a loop ends by itself: a larger budget changes nothing. -/
theorem walk_single_eq (h : t.Linked) (id : LoopId) {fuel : Nat} (hfuel : t.size ≤ fuel) :
    t.walk fuel [id] = t.preorder id := by
  cases hn : t.nodes[id]? with
  | none => rw [walk_eq_error hn, preorder_eq_error hn]
  | some n =>
    have hlength := h.length_inside_le hn
    rw [h.preorder_eq hn, h.walk_eq fuel [id] (by simp [hn]) (by simp; omega)]
    simp

end Linked

/-- No computation comes twice inside a loop. -/
theorem Sound.nodup_subtreeComputations (h : t.Sound) {id : LoopId} {n : Node}
    (hn : t.nodes[id]? = some n) : ((t.inside id).flatMap t.computationsOf).Nodup := by
  have hlinked := h.toLinked
  have hall := h.nodup_computations
  rw [h.indices_eq.1] at hall
  refine List.nodup_flatMap.2 ⟨?_, ?_⟩
  · intro x hx
    exact (List.nodup_flatMap.1 hall).1 x
      (hlinked.mem_listing.2 (hlinked.exists_node_of_mem_inside hn hx))
  · refine (hlinked.nodup_inside hn).imp fun {x y} hxy c hcx hcy => hxy ?_
    -- a computation has one owner
    have hx := h.owner_iff.2 (mem_computationsOf.1 hcx)
    have hy := h.owner_iff.2 (mem_computationsOf.1 hcy)
    exact Option.some.inj (hx.symm.trans hy)

/-- Walks with a work list are recursive listings.

What is inside a loop that is there comes to the loop and then what is
inside its children, child after child, and nothing comes twice; so do its
computations.  An absent loop is refused by name.  A walk is never cut short
by its budget.  The walks from the roots meet every loop once, and the
computations inside the roots are the stored ones. -/
theorem Reachable.walks_unfold (h : t.Reachable) :
    (∀ (id : LoopId) (n : Node), t.nodes[id]? = some n →
      (∃ orders, n.children.mapM t.preorder = .ok orders ∧
        t.preorder id = .ok (id :: orders.flatten) ∧ (id :: orders.flatten).Nodup) ∧
      ∃ lists, n.children.mapM t.subtreeComputations = .ok lists ∧
        t.subtreeComputations id = .ok (n.computations ++ lists.flatten) ∧
        (n.computations ++ lists.flatten).Nodup) ∧
    (∀ id : LoopId, t.nodes[id]? = none →
      t.preorder id = .error (.unknownLoop id) ∧
      t.subtreeComputations id = .error (.unknownLoop id)) ∧
    (∀ (id : LoopId) (fuel : Nat), t.size ≤ fuel → t.walk fuel [id] = t.preorder id) ∧
    (∃ orders, t.roots.mapM t.preorder = .ok orders ∧ orders.flatten.Nodup ∧
      ∀ id, id ∈ orders.flatten ↔ t.contains id = true) ∧
    ∃ lists, t.roots.mapM t.subtreeComputations = .ok lists ∧
      lists.flatten = t.computations := by
  have hsound := h.sound
  have hlinked := hsound.toLinked
  have hroots : ∀ r ∈ t.roots, ∃ n, t.nodes[r]? = some n := fun r hr =>
    (hlinked.exists_node_of_mem_roots hr).imp fun _ hn => hn.1
  refine ⟨fun id n hn => ?_, fun id hn => ⟨preorder_eq_error hn, subtreeComputations_eq_error hn⟩,
    fun id fuel hfuel => hlinked.walk_single_eq id hfuel, ?_, ?_⟩
  · have hchildren : ∀ c ∈ n.children, ∃ m, t.nodes[c]? = some m := fun c hc =>
      (hlinked.below hn hc).imp fun _ hm => hm.1
    have hinside : t.inside id = id :: (n.children.map t.inside).flatten := by
      rw [hlinked.inside_eq hn, List.flatMap_def]
    have hcomputations : (t.inside id).flatMap t.computationsOf = n.computations ++
        (n.children.map fun c => (t.inside c).flatMap t.computationsOf).flatten := by
      rw [hlinked.inside_eq hn, List.flatMap_cons, computationsOf_eq hn, List.flatMap_assoc,
        List.flatMap_def]
    constructor
    · refine ⟨_, hlinked.mapM_preorder hchildren, ?_, ?_⟩
      · rw [hlinked.preorder_eq hn, hinside]
      · rw [← hinside]
        exact hlinked.nodup_inside hn
    · refine ⟨_, hlinked.mapM_subtreeComputations hchildren, ?_, ?_⟩
      · rw [hlinked.subtreeComputations_eq hn, hcomputations]
      · rw [← hcomputations]
        exact hsound.nodup_subtreeComputations hn
  · refine ⟨_, hlinked.mapM_preorder hroots, ?_, fun id => ?_⟩
    · rw [← List.flatMap_def]
      exact hlinked.nodup_listing
    · rw [← List.flatMap_def, contains_eq_true_iff]
      exact hlinked.mem_listing
  · refine ⟨_, hlinked.mapM_subtreeComputations hroots, ?_⟩
    rw [hsound.indices_eq.1, listing, List.flatMap_assoc, List.flatMap_def]

/-- In `branching`, its loops `i` and `k` exchanged, the walk from the root is
put together from those of `j` and of `i`. -/
theorem branching_walks_unfold :
    ∃ t u n, ofTable .branching = .ok t ∧ t.interchange ⟨"i"⟩ ⟨"k"⟩ = .ok u ∧
      u.nodes[(⟨"k"⟩ : LoopId)]? = some n ∧ n.children = [⟨"j"⟩, ⟨"i"⟩] ∧
      ∃ orders, n.children.mapM u.preorder = .ok orders ∧
        u.preorder ⟨"k"⟩ = .ok (⟨"k"⟩ :: orders.flatten) ∧
        orders.flatten = [⟨"j"⟩, ⟨"i"⟩, ⟨"l"⟩] := by
  obtain ⟨t, ht⟩ : ∃ t, ofTable .branching = .ok t := ⟨_, rfl⟩
  obtain ⟨u, hu⟩ : ∃ u, t.interchange ⟨"i"⟩ ⟨"k"⟩ = .ok u := by
    cases ht
    exact ⟨_, rfl⟩
  obtain ⟨n, hn, hchildren⟩ : ∃ n, u.nodes[(⟨"k"⟩ : LoopId)]? = some n ∧
      n.children = [⟨"j"⟩, ⟨"i"⟩] := by
    cases ht
    cases hu
    exact ⟨_, rfl, by decide +kernel⟩
  obtain ⟨orders, horders, hwalk, -⟩ :=
    ((Reachable.walks_unfold (.interchanged (.built ht) hu)).1 ⟨"k"⟩ n hn).1
  refine ⟨t, u, n, ht, hu, hn, hchildren, orders, horders, hwalk, ?_⟩
  have hfound : u.preorder ⟨"k"⟩ = .ok [⟨"k"⟩, ⟨"j"⟩, ⟨"i"⟩, ⟨"l"⟩] := by
    cases ht
    cases hu
    rfl
  rw [hfound] at hwalk
  injection hwalk with hwalk
  injection hwalk with _ hwalk
  exact hwalk.symm

end Forest

end LoopNest
