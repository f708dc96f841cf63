import LoopNest.Forest.Ancestry
import LoopNest.Proofs.Forest.Links

/-!
LoopNest.Proofs.Forest.Ancestry — where the way up ends.

The way up from a loop takes as many steps as its level says, which is less
than the forest has loops: no budget runs out in a linked forest.

* `Linked.rootOf_eq` — it ends at the root that the loop is inside;
* `Linked.levelOf_eq` — counting its steps gives the level that the loop
  carries;
* `Linked.isAncestor_eq` — it passes the loops that the loop is inside.

An absent loop is refused by name (`rootOf_eq_error` and its like).
-/

namespace LoopNest

namespace Forest

variable {t : Forest}

theorem rootOf_eq_error {id : LoopId} (hn : t.nodes[id]? = none) :
    t.rootOf id = .error (.unknownLoop id) := by
  rw [rootOf, node, hn]
  rfl

theorem levelOf_eq_error {id : LoopId} (hn : t.nodes[id]? = none) :
    t.levelOf id = .error (.unknownLoop id) := by
  rw [levelOf, node, hn]
  rfl

/-- The lower of the two loops is looked up first. -/
theorem isAncestor_eq_error (a : LoopId) {id : LoopId} (hn : t.nodes[id]? = none) :
    t.isAncestor a id = .error (.unknownLoop id) := by
  rw [isAncestor, node, hn]
  rfl

theorem isAncestor_eq_error_above {a id : LoopId} {n : Node} (hn : t.nodes[id]? = some n)
    (hm : t.nodes[a]? = none) : t.isAncestor a id = .error (.unknownLoop a) := by
  rw [isAncestor, node, node, hn, hm]
  rfl

namespace Linked

theorem climbToRoot_eq (h : t.Linked) (start : LoopId) {root : LoopId} (hroot : root ∈ t.roots) :
    ∀ (fuel : Nat) {id : LoopId} {n : Node}, t.nodes[id]? = some n → n.level < fuel →
      id ∈ t.inside root → t.climbToRoot start fuel n = .ok root
  | 0, _, _, _, hl, _ => by simp at hl
  | fuel + 1, id, n, hn, hl, hid => by
      obtain ⟨r, hr, hrp, -⟩ := h.exists_node_of_mem_roots hroot
      have hup := (h.mem_inside_iff hr hn).1 hid
      rw [climbToRoot]
      cases hp : n.parent with
      | none =>
        rcases hup with rfl | ⟨p, hp', -⟩
        · simp only [h.id_eq hn]
        · rw [hp] at hp'
          cases hp'
      | some p =>
        obtain ⟨m, hm, -, hlm⟩ := h.above hn hp
        rcases hup with rfl | ⟨p', hp', hinside⟩
        · rw [hn] at hr
          cases hr
          rw [hp] at hrp
          cases hrp
        · rw [hp] at hp'
          cases hp'
          simp only [node, hm, ok_bind]
          exact climbToRoot_eq h start hroot fuel hm (by omega) hinside

/-- The root above a loop is the one that the loop is inside. -/
theorem rootOf_eq (h : t.Linked) {root id : LoopId} (hroot : root ∈ t.roots)
    (hid : id ∈ t.inside root) : t.rootOf id = .ok root := by
  obtain ⟨r, hr, -⟩ := h.exists_node_of_mem_roots hroot
  obtain ⟨n, hn⟩ := h.exists_node_of_mem_inside hr hid
  rw [rootOf, node, hn]
  exact h.climbToRoot_eq id hroot t.size hn (h.level_lt_size hn) hid

theorem countAncestors_eq (h : t.Linked) (start : LoopId) :
    ∀ (fuel : Nat) {id : LoopId} {n : Node}, t.nodes[id]? = some n → n.level ≤ fuel →
      t.countAncestors start fuel n = .ok n.level := by
  intro fuel
  induction fuel with
  | zero =>
    intro id n hn hl
    cases hp : n.parent with
    | none => simp [countAncestors, hp, h.level_root hn hp]
    | some p =>
      obtain ⟨m, -, -, hlm⟩ := h.above hn hp
      omega
  | succ fuel ih =>
    intro id n hn hl
    cases hp : n.parent with
    | none => simp [countAncestors, hp, h.level_root hn hp]
    | some p =>
      obtain ⟨m, hm, -, hlm⟩ := h.above hn hp
      rw [countAncestors.eq_def]
      simp only [hp, node, hm, ok_bind, ih hm (by omega), hlm]
      rfl

/-- The level that a loop carries is the number of its ancestors. -/
theorem levelOf_eq (h : t.Linked) {id : LoopId} {n : Node} (hn : t.nodes[id]? = some n) :
    t.levelOf id = .ok n.level := by
  rw [levelOf, node, hn]
  exact h.countAncestors_eq id t.size hn (Nat.le_of_lt (h.level_lt_size hn))

/-- A loop lies strictly inside another exactly if its parent lies inside the
other. -/
theorem strictly_inside_iff (h : t.Linked) {a id : LoopId} {m n : Node}
    (hm : t.nodes[a]? = some m) (hn : t.nodes[id]? = some n) :
    id ≠ a ∧ id ∈ t.inside a ↔ ∃ p, n.parent = some p ∧ p ∈ t.inside a := by
  rw [h.mem_inside_iff hm hn]
  constructor
  · rintro ⟨hne, rfl | hup⟩
    · exact absurd rfl hne
    · exact hup
  · rintro ⟨p, hp, hinside⟩
    refine ⟨?_, Or.inr ⟨p, hp, hinside⟩⟩
    -- a parent inside its own child would be deeper than itself
    rintro rfl
    obtain ⟨k, hk, -, hl⟩ := h.above hn hp
    have := h.level_le_of_mem_inside hn hk hinside
    omega

theorem climbsTo_eq (h : t.Linked) {a : LoopId} {m : Node} (hm : t.nodes[a]? = some m) :
    ∀ (fuel : Nat) {id : LoopId} {n : Node}, t.nodes[id]? = some n → n.level ≤ fuel →
      t.climbsTo a fuel n = .ok (decide (id ≠ a ∧ id ∈ t.inside a)) := by
  intro fuel
  induction fuel with
  | zero =>
    intro id n hn hl
    cases hp : n.parent with
    | none => simp [climbsTo, h.strictly_inside_iff hm hn, hp]
    | some p =>
      obtain ⟨k, -, -, hlk⟩ := h.above hn hp
      omega
  | succ fuel ih =>
    intro id n hn hl
    cases hp : n.parent with
    | none => simp [climbsTo, h.strictly_inside_iff hm hn, hp]
    | some p =>
      have hup : id ≠ a ∧ id ∈ t.inside a ↔ p ∈ t.inside a := by
        simp [h.strictly_inside_iff hm hn, hp]
      obtain ⟨k, hk, -, hlk⟩ := h.above hn hp
      rw [climbsTo]
      simp only [hp, hup]
      by_cases hpa : p = a
      · subst hpa
        simp [h.self_mem_inside hm]
      · simp only [if_neg hpa, node, hk, ok_bind, ih hk (by omega)]
        simp [hpa]

/-- A loop is an ancestor of another exactly if the other lies strictly
inside it. -/
theorem isAncestor_eq (h : t.Linked) {a id : LoopId} {m n : Node}
    (hm : t.nodes[a]? = some m) (hn : t.nodes[id]? = some n) :
    t.isAncestor a id = .ok (decide (id ≠ a ∧ id ∈ t.inside a)) := by
  rw [isAncestor, node, node, hn, hm]
  exact h.climbsTo_eq hm t.size hn (Nat.le_of_lt (h.level_lt_size hn))

end Linked

end Forest

end LoopNest
