import LoopNest.Proofs.Forest.Ancestry
import LoopNest.Proofs.Forest.Relabelling
import LoopNest.Proofs.Forest.Sections

/-!
LoopNest.Proofs.Forest.Equivariance — what a relabelled forest answers.

A question about a forest names loops, and so does its answer.  If loops are
permuted among their places, the same question with its loops renamed has
the same answer with its loops renamed.  A loop that is not there is refused
by name, so the permutation must not rename it (`Forest.KeepsOutside`).

* `KeepsOutside.query` — the one argument about presence and refusal, for
  every question about one loop;
* `Linked.preorder_relabel`, `Linked.rootOf_relabel`, … — the questions;
* `OrderedMap.rename` — answers given root by root, keys and values renamed;
* `Linked.sections_relabel` — the sections, found in the same order.
-/

namespace LoopNest

/-! ## Answers root by root -/

theorem map_putKey {κ α β : Type} [DecidableEq κ] {f : κ → κ} (hf : Function.Injective f)
    (g : α → β) (k : κ) (v : α) (l : List (κ × α)) :
    (putKey k v l).map (Prod.map f g) = putKey (f k) (g v) (l.map (Prod.map f g)) := by
  induction l with
  | nil => rfl
  | cons p rest ih =>
    obtain ⟨j, w⟩ := p
    by_cases h : j = k
    · simp [putKey, h]
    · simp [putKey, h, hf.ne h, ih]

namespace OrderedMap

variable {κ α β : Type}

/-- A map with all its keys renamed and its values transformed; the order
stays. -/
def rename (π : Equiv.Perm κ) (f : α → β) (m : OrderedMap κ α) : OrderedMap κ β where
  entries := m.entries.map (Prod.map π f)
  distinct := by
    have hkeys : (m.entries.map (Prod.map π f)).map Prod.fst = m.keys.map π := by
      rw [keys, List.map_map, List.map_map]
      rfl
    rw [hkeys]
    exact m.nodup_keys.map π.injective

theorem rename_insert [DecidableEq κ] (π : Equiv.Perm κ) (f : α → β) (m : OrderedMap κ α)
    (k : κ) (v : α) : (m.insert k v).rename π f = (m.rename π f).insert (π k) (f v) :=
  OrderedMap.ext (map_putKey π.injective f k v m.entries)

end OrderedMap

namespace Forest

variable {t : Forest} {π : Equiv.Perm LoopId}

/-- If every root has its answer renamed, so have all of them together. -/
theorem perRoot_rename {α : Type} {f g : LoopId → Except Error α} {ρ : α → α} :
    ∀ (roots : List LoopId) (found : OrderedMap LoopId α),
      (∀ root ∈ roots, g (π root) = (f root).map ρ) →
      perRoot g (found.rename π ρ) (roots.map π)
        = (perRoot f found roots).map (OrderedMap.rename π ρ)
  | [], _, _ => rfl
  | root :: rest, found, hroots => by
      rw [List.map_cons, perRoot, perRoot, hroots root (List.mem_cons_self ..)]
      cases f root with
      | error e => rfl
      | ok v =>
        have hrest := perRoot_rename rest (found.insert root v)
          fun r hr => hroots r (List.mem_cons_of_mem _ hr)
        rw [OrderedMap.rename_insert] at hrest
        exact hrest

/-! ## Permutations and absent loops -/

/-- A permutation of the loops of a forest that moves nothing else. -/
def KeepsOutside (π : Equiv.Perm LoopId) (t : Forest) : Prop :=
  ∀ id, t.contains id = false → π id = id

theorem contains_eq_false_iff {id : LoopId} :
    t.contains id = false ↔ t.nodes[id]? = none := by
  rw [← Bool.not_eq_true, contains_eq_true_iff]
  cases t.nodes[id]? <;> simp

theorem size_relabel (π : Equiv.Perm LoopId) (t : Forest) : (t.relabel π).size = t.size := by
  simp [size, relabel]

namespace KeepsOutside

theorem permutes (h : KeepsOutside π t) : Permutes π t := by
  intro id
  cases hid : t.contains id with
  | false => rw [h id hid, hid]
  | true =>
    -- an absent image would be its own image, and then the loop itself
    cases hπ : t.contains (π id) with
    | true => rfl
    | false => rw [← hπ, π.injective (h (π id) hπ), hid]

theorem swap {a b : LoopId} (ha : t.contains a = true) (hb : t.contains b = true) :
    KeepsOutside (Equiv.swap a b) t := by
  intro id hid
  refine Equiv.swap_apply_of_ne_of_ne ?_ ?_
  · rintro rfl
    rw [ha] at hid
    cases hid
  · rintro rfl
    rw [hb] at hid
    cases hid

/-- A loop that is not there is not there afterwards, under its own name. -/
theorem absent (h : KeepsOutside π t) {id : LoopId} (hn : t.nodes[id]? = none) :
    π id = id ∧ (t.relabel π).nodes[id]? = none := by
  rw [← contains_eq_false_iff] at hn
  refine ⟨h id hn, ?_⟩
  rw [← contains_eq_false_iff, contains_relabel, hn]

/-- A question about one loop that is refused for absent loops and renames
its answer for present ones renames its answer everywhere. -/
theorem query {α : Type} (h : KeepsOutside π t) (ask : Forest → LoopId → Except Error α)
    (rename : α → α)
    (hrefused : ∀ (u : Forest) (id : LoopId), u.nodes[id]? = none →
      ask u id = .error (.unknownLoop id))
    (hanswered : ∀ (id : LoopId) (n : Node), t.nodes[id]? = some n →
      ∃ v, ask t id = .ok v ∧ ask (t.relabel π) (π id) = .ok (rename v))
    (id : LoopId) : ask (t.relabel π) (π id) = (ask t id).map rename := by
  cases hn : t.nodes[id]? with
  | none =>
    obtain ⟨hid, hnew⟩ := h.absent hn
    rw [hid, hrefused _ _ hnew, hrefused _ _ hn]
    rfl
  | some n =>
    obtain ⟨v, hv, hnew⟩ := hanswered id n hn
    rw [hnew, hv]
    rfl

/-- The same for an answer without loops in it. -/
theorem query_same {α : Type} (h : KeepsOutside π t) (ask : Forest → LoopId → Except Error α)
    (hrefused : ∀ (u : Forest) (id : LoopId), u.nodes[id]? = none →
      ask u id = .error (.unknownLoop id))
    (hanswered : ∀ (id : LoopId) (n : Node), t.nodes[id]? = some n →
      ∃ v, ask t id = .ok v ∧ ask (t.relabel π) (π id) = .ok v)
    (id : LoopId) : ask (t.relabel π) (π id) = ask t id := by
  refine (h.query ask (fun v => v) hrefused hanswered id).trans ?_
  cases ask t id <;> rfl

end KeepsOutside

/-! ## Nodes -/

/-- The node of a loop after a permutation stands where the loop comes from. -/
theorem node_relabel (h : Permutes π t) {id : LoopId} {n : Node} (hn : t.nodes[id]? = some n) :
    ∃ own : Node, (t.relabel π).node (π id) = .ok (own.atPlace π n) := by
  obtain ⟨own, -, hnew⟩ := exists_nodes_relabel h hn
  exact ⟨own, node_eq hnew⟩

theorem Node.passThrough?_atPlace (own n : Node) :
    (own.atPlace π n).passThrough? = n.passThrough?.map π := by
  obtain ⟨_, _, _, _, _, children, computations, _⟩ := n
  rcases children with _ | ⟨c, _ | ⟨d, rest⟩⟩ <;> rcases computations with _ | ⟨s, more⟩ <;> rfl

namespace Linked

/-! ## Downward questions -/

theorem preorder_relabel (h : t.Linked) (hπ : KeepsOutside π t) (id : LoopId) :
    (t.relabel π).preorder (π id) = (t.preorder id).map (List.map π) := by
  refine hπ.query preorder (List.map π) (fun _ _ hn => preorder_eq_error hn) ?_ id
  intro id n hn
  obtain ⟨own, -, hnew⟩ := exists_nodes_relabel hπ.permutes hn
  refine ⟨_, h.preorder_eq hn, ?_⟩
  rw [(h.relabel hπ.permutes).preorder_eq hnew, h.inside_relabel hπ.permutes hn]

/-- The computations inside a loop are those inside the place that it comes
from, in the same order. -/
theorem subtreeComputations_relabel (h : t.Linked) (hπ : KeepsOutside π t) (id : LoopId) :
    (t.relabel π).subtreeComputations (π id) = t.subtreeComputations id := by
  refine hπ.query_same subtreeComputations (fun _ _ hn => subtreeComputations_eq_error hn) ?_ id
  intro id n hn
  obtain ⟨own, -, hnew⟩ := exists_nodes_relabel hπ.permutes hn
  refine ⟨_, h.subtreeComputations_eq hn, ?_⟩
  rw [(h.relabel hπ.permutes).subtreeComputations_eq hnew, h.inside_relabel hπ.permutes hn,
    List.flatMap_map]
  congr 1
  exact List.flatMap_congr fun x _ => computationsOf_relabel hπ.permutes x

/-! ## Upward questions -/

theorem rootOf_relabel (h : t.Linked) (hπ : KeepsOutside π t) (id : LoopId) :
    (t.relabel π).rootOf (π id) = (t.rootOf id).map π := by
  refine hπ.query rootOf π (fun _ _ hn => rootOf_eq_error hn) ?_ id
  intro id n hn
  obtain ⟨root, hroot, hid⟩ := List.mem_flatMap.1 (h.mem_listing.2 ⟨n, hn⟩)
  obtain ⟨r, hr, -⟩ := h.exists_node_of_mem_roots hroot
  have hroot' : π root ∈ (t.relabel π).roots := List.mem_map_of_mem hroot
  have hid' : π id ∈ (t.relabel π).inside (π root) := by
    rw [h.inside_relabel hπ.permutes hr]
    exact List.mem_map_of_mem hid
  exact ⟨root, h.rootOf_eq hroot hid, (h.relabel hπ.permutes).rootOf_eq hroot' hid'⟩

theorem levelOf_relabel (h : t.Linked) (hπ : KeepsOutside π t) (id : LoopId) :
    (t.relabel π).levelOf (π id) = t.levelOf id := by
  refine hπ.query_same levelOf (fun _ _ hn => levelOf_eq_error hn) ?_ id
  intro id n hn
  obtain ⟨own, -, hnew⟩ := exists_nodes_relabel hπ.permutes hn
  refine ⟨n.level, h.levelOf_eq hn, ?_⟩
  rw [(h.relabel hπ.permutes).levelOf_eq hnew]
  rfl

theorem isAncestor_relabel (h : t.Linked) (hπ : KeepsOutside π t) (a id : LoopId) :
    (t.relabel π).isAncestor (π a) (π id) = t.isAncestor a id := by
  cases hn : t.nodes[id]? with
  | none =>
    obtain ⟨hid, hnew⟩ := hπ.absent hn
    rw [hid, isAncestor_eq_error _ hnew, isAncestor_eq_error _ hn]
  | some n =>
    obtain ⟨own, -, hnew⟩ := exists_nodes_relabel hπ.permutes hn
    cases hm : t.nodes[a]? with
    | none =>
      obtain ⟨ha, hgone⟩ := hπ.absent hm
      rw [ha, isAncestor_eq_error_above hnew hgone, isAncestor_eq_error_above hn hm]
    | some m =>
      obtain ⟨own', -, hnew'⟩ := exists_nodes_relabel hπ.permutes hm
      rw [(h.relabel hπ.permutes).isAncestor_eq hnew' hnew, h.isAncestor_eq hm hn,
        h.inside_relabel hπ.permutes hm]
      simp [List.mem_map_of_injective π.injective]

end Linked

theorem areSiblings_relabel (hπ : KeepsOutside π t) (a b : LoopId) :
    (t.relabel π).areSiblings (π a) (π b) = t.areSiblings a b := by
  cases hm : t.nodes[a]? with
  | none =>
    obtain ⟨ha, hgone⟩ := hπ.absent hm
    rw [areSiblings, areSiblings, ha, node_eq_error hgone, node_eq_error hm]
    rfl
  | some m =>
    obtain ⟨own, hfirst⟩ := node_relabel hπ.permutes hm
    cases hn : t.nodes[b]? with
    | none =>
      obtain ⟨hb, hgone⟩ := hπ.absent hn
      rw [areSiblings, areSiblings, hb, hfirst, node_eq hm, node_eq_error hgone,
        node_eq_error hn]
      rfl
    | some n =>
      obtain ⟨own', hsecond⟩ := node_relabel hπ.permutes hn
      have hparents : (m.parent.map π == n.parent.map π) = (m.parent == n.parent) := by
        rw [Bool.eq_iff_iff, beq_iff_eq, beq_iff_eq]
        exact (Option.map_injective π.injective).eq_iff
      rw [areSiblings, areSiblings, hfirst, hsecond, node_eq hm, node_eq hn]
      simp [Node.atPlace, Node.relocated, hparents]

/-! ## Sections -/

theorem chain_relabel (hπ : Permutes π t) : ∀ (fuel : Nat) {id : LoopId} {s : Section}
    {starts : List LoopId}, t.chain fuel id = .ok (s, starts) →
    (t.relabel π).chain fuel (π id) = .ok (s.map π, starts.map π) := by
  intro fuel
  induction fuel with
  | zero =>
    intro id s starts hfound
    obtain ⟨_, _, hfail⟩ := bind_eq_ok.1 hfound
    cases hfail
  | succ fuel ih =>
    intro id s starts hfound
    obtain ⟨n, hn, hfound⟩ := bind_eq_ok.1 hfound
    obtain ⟨own, hnew⟩ := node_relabel hπ (node_eq_ok_iff.1 hn)
    rw [chain, hnew, ok_bind, Node.passThrough?_atPlace]
    cases hchild : n.passThrough? with
    | none =>
      rw [hchild] at hfound
      cases hfound
      rfl
    | some child =>
      rw [hchild] at hfound
      obtain ⟨⟨rest, starts'⟩, hrest, hfound⟩ := bind_eq_ok.1 hfound
      cases hfound
      rw [Option.map_some]
      simp only [ih hrest, ok_bind]
      rfl

/-- Sections are found in the same order. -/
theorem sectionsFrom_relabel (hπ : Permutes π t) : ∀ (fuel : Nat) {queue : List LoopId}
    {found : List Section}, t.sectionsFrom fuel queue = .ok found →
    (t.relabel π).sectionsFrom fuel (queue.map π) = .ok (found.map (List.map π))
  | _, [], found, hfound => by
      simp only [List.map_nil, sectionsFrom] at hfound ⊢
      cases hfound
      rfl
  | 0, id :: _, found, hfound => by
      obtain ⟨_, _, hfail⟩ := bind_eq_ok.1 hfound
      cases hfail
  | fuel + 1, id :: queue, found, hfound => by
      obtain ⟨⟨s, starts⟩, hs, hfound⟩ := bind_eq_ok.1 hfound
      obtain ⟨rest, hrest, hfound⟩ := bind_eq_ok.1 hfound
      cases hfound
      have hnext := sectionsFrom_relabel hπ fuel hrest
      rw [List.map_append] at hnext
      rw [List.map_cons, sectionsFrom, size_relabel, chain_relabel hπ _ hs, ok_bind]
      simp only [hnext, ok_bind]
      rfl

/-- The sections of every root, with roots and loops renamed. -/
theorem Linked.sections_relabel (h : t.Linked) (hπ : Permutes π t) :
    (t.relabel π).sections = t.sections.map (OrderedMap.rename π (List.map (List.map π))) := by
  refine perRoot_rename t.roots .empty fun root hroot => ?_
  obtain ⟨n, hn, -⟩ := h.exists_node_of_mem_roots hroot
  have hfuel : ([root].flatMap t.inside).length ≤ t.size := by
    rw [List.flatMap_singleton]
    exact h.length_inside_le hn
  obtain ⟨found, hfound, -⟩ := h.sectionsFrom_eq t.size [root] (by simp [hn]) hfuel
  have hnew := sectionsFrom_relabel hπ t.size hfound
  rw [size_relabel]
  rw [hfound]
  exact hnew

end Forest

end LoopNest
