import LoopNest.Forest.Build
import LoopNest.Proofs.Forest.Links

/-!
LoopNest.Proofs.Forest.Walks — what the work lists of a linked forest come
to, and forests whose indices are in step with their nodes.

A walk keeps its pending loops on a stack and has a budget.  In a linked
forest the loops still to come are those inside the pending ones, so every
visit lowers their number by one: the number is the budget that suffices,
and the answer is the recursive listing (`Linked.walk_eq`).

* `Linked.preorder_eq`, `Linked.order_eq`, `Linked.subtreeComputations_eq`;
* `claim_eq_ok_iff`, `getElem?_claim` — when owners can be given, and whose
  they are then;
* `Sound` — linked, named after ids, indices as if made afresh; its owners
  are read off the nodes (`Sound.owner_iff`).
-/

namespace LoopNest

namespace Forest

variable {t : Forest}

theorem node_eq {id : LoopId} {n : Node} (hn : t.nodes[id]? = some n) : t.node id = .ok n := by
  simp [node, hn]

theorem node_eq_error {id : LoopId} (hn : t.nodes[id]? = none) :
    t.node id = .error (.unknownLoop id) := by
  rw [node, hn]

theorem node_eq_ok_iff {id : LoopId} {n : Node} :
    t.node id = .ok n ↔ t.nodes[id]? = some n := by
  cases hn : t.nodes[id]? <;> simp [node, hn]

/-- A walk that starts with an absent loop is refused, whatever its budget. -/
theorem walk_eq_error {id : LoopId} (hn : t.nodes[id]? = none) (fuel : Nat)
    (rest : List LoopId) : t.walk fuel (id :: rest) = .error (.unknownLoop id) := by
  cases fuel <;> simp only [walk, node_eq_error hn] <;> rfl

theorem preorder_eq_error {id : LoopId} (hn : t.nodes[id]? = none) :
    t.preorder id = .error (.unknownLoop id) :=
  walk_eq_error hn t.size []

theorem subtreeComputations_eq_error {id : LoopId} (hn : t.nodes[id]? = none) :
    t.subtreeComputations id = .error (.unknownLoop id) := by
  rw [subtreeComputations, preorder_eq_error hn]
  rfl

/-- A loop whose computations are known is there. -/
theorem exists_node_of_subtreeComputations {id : LoopId} {computations : List String}
    (h : t.subtreeComputations id = .ok computations) : ∃ n, t.nodes[id]? = some n := by
  cases hn : t.nodes[id]? with
  | none =>
    rw [subtreeComputations_eq_error hn] at h
    cases h
  | some n => exact ⟨n, rfl⟩

/-- The computations directly inside a loop; an absent loop has none. -/
def computationsOf (t : Forest) (id : LoopId) : List String :=
  (t.nodes[id]?.map Node.computations).getD []

/-- The computations directly inside some loops, each with its loop. -/
def held (t : Forest) (ids : List LoopId) : List (LoopId × String) :=
  ids.flatMap fun id => (t.computationsOf id).map fun computation => (id, computation)

theorem computationsOf_eq {id : LoopId} {n : Node} (hn : t.nodes[id]? = some n) :
    t.computationsOf id = n.computations := by
  simp [computationsOf, hn]

theorem mem_computationsOf {id : LoopId} {c : String} :
    c ∈ t.computationsOf id ↔ ∃ n, t.nodes[id]? = some n ∧ c ∈ n.computations := by
  cases hn : t.nodes[id]? <;> simp [computationsOf, hn]

theorem held_cons (id : LoopId) (ids : List LoopId) :
    t.held (id :: ids)
      = (t.computationsOf id).map (fun computation => (id, computation)) ++ t.held ids := by
  rw [held, List.flatMap_cons, held]

theorem mem_held {ids : List LoopId} {id : LoopId} {c : String} :
    (id, c) ∈ t.held ids ↔ id ∈ ids ∧ c ∈ t.computationsOf id := by
  simp [held]

theorem map_snd_held (ids : List LoopId) :
    (t.held ids).map Prod.snd = ids.flatMap t.computationsOf := by
  simp [held, List.map_flatMap, Function.comp_def]

namespace Linked

/-! ## Walks -/

/-- A walk with a budget for all that is inside its pending loops lists it,
pending loop after pending loop. -/
theorem walk_eq (h : t.Linked) : ∀ (fuel : Nat) (ids : List LoopId),
    (∀ id ∈ ids, ∃ n, t.nodes[id]? = some n) → (ids.flatMap t.inside).length ≤ fuel →
    t.walk fuel ids = .ok (ids.flatMap t.inside)
  | _, [], _, _ => by simp [walk]
  | 0, id :: rest, hids, hf => by
      obtain ⟨n, hn⟩ := hids id (List.mem_cons_self ..)
      rw [h.flatMap_inside_cons hn] at hf
      simp at hf
  | fuel + 1, id :: rest, hids, hf => by
      obtain ⟨n, hn⟩ := hids id (List.mem_cons_self ..)
      have hnext : ∀ x ∈ n.children ++ rest, ∃ m, t.nodes[x]? = some m := by
        intro x hx
        rcases List.mem_append.1 hx with hx | hx
        · obtain ⟨m, hm, -⟩ := h.below hn hx
          exact ⟨m, hm⟩
        · exact hids x (List.mem_cons_of_mem _ hx)
      -- the children take the visited loop's place on the stack
      rw [h.flatMap_inside_cons hn] at hf ⊢
      rw [walk, node_eq hn]
      show (t.walk fuel (n.children ++ rest) >>= fun order => pure (id :: order)) = _
      rw [walk_eq h fuel _ hnext (by simpa using hf)]
      rfl

theorem preorder_eq (h : t.Linked) {id : LoopId} {n : Node} (hn : t.nodes[id]? = some n) :
    t.preorder id = .ok (t.inside id) := by
  have hids : ∀ x ∈ [id], ∃ m, t.nodes[x]? = some m := by
    intro x hx
    rw [List.mem_singleton.1 hx]
    exact ⟨n, hn⟩
  rw [preorder, h.walk_eq t.size [id] hids (by simpa using h.length_inside_le hn)]
  simp

theorem preorders_eq (h : t.Linked) : ∀ (ids : List LoopId),
    (∀ id ∈ ids, ∃ n, t.nodes[id]? = some n) → t.preorders ids = .ok (ids.flatMap t.inside)
  | [], _ => rfl
  | id :: rest, hids => by
      obtain ⟨n, hn⟩ := hids id (List.mem_cons_self ..)
      rw [preorders, h.preorder_eq hn,
        preorders_eq h rest fun x hx => hids x (List.mem_cons_of_mem _ hx)]
      rfl

/-- The whole forest is walked in the order of its listing. -/
theorem order_eq (h : t.Linked) : t.order = .ok t.listing := by
  refine h.preorders_eq t.roots fun r hr => ?_
  obtain ⟨n, hn, -⟩ := h.exists_node_of_mem_roots hr
  exact ⟨n, hn⟩

end Linked

theorem holdings_eq : ∀ (ids : List LoopId),
    (∀ id ∈ ids, ∃ n, t.nodes[id]? = some n) → t.holdings ids = .ok (t.held ids)
  | [], _ => rfl
  | id :: rest, hids => by
      obtain ⟨n, hn⟩ := hids id (List.mem_cons_self ..)
      rw [holdings, node_eq hn,
        holdings_eq rest fun x hx => hids x (List.mem_cons_of_mem _ hx), held_cons,
        computationsOf_eq hn]
      rfl

namespace Linked

theorem holdings_listing (h : t.Linked) : t.holdings t.listing = .ok (t.held t.listing) :=
  holdings_eq t.listing fun _ hid => h.mem_listing.1 hid

/-- The computations inside a loop, loop after loop in pre-order. -/
theorem subtreeComputations_eq (h : t.Linked) {id : LoopId} {n : Node}
    (hn : t.nodes[id]? = some n) :
    t.subtreeComputations id = .ok ((t.inside id).flatMap t.computationsOf) := by
  have hheld : t.holdings (t.inside id) = .ok (t.held (t.inside id)) :=
    holdings_eq _ fun _ hx => h.exists_node_of_mem_inside hn hx
  rw [subtreeComputations, h.preorder_eq hn]
  show (t.holdings (t.inside id) >>= fun held => pure (held.map Prod.snd)) = _
  rw [hheld, ← map_snd_held]
  rfl

end Linked

/-! ## Owners -/

/-- Owners can be given exactly if no computation is held twice or taken
already. -/
theorem claim_eq_ok_iff : ∀ (held : List (LoopId × String)) (owners : NameMap LoopId),
    (∃ given, claim owners held = .ok given) ↔
      (held.map Prod.snd).Nodup ∧ ∀ c ∈ held.map Prod.snd, owners[c]? = none
  | [], owners => by simp [claim]
  | (id, c) :: rest, owners => by
      cases hc : owners[c]? with
      | some owner =>
        simp only [claim, hc, List.map_cons]
        constructor
        · rintro ⟨_, hgiven⟩
          cases hgiven
        · rintro ⟨-, hfree⟩
          have := hfree c (List.mem_cons_self ..)
          rw [hc] at this
          cases this
      | none =>
        simp only [claim, hc, List.map_cons, List.nodup_cons]
        rw [claim_eq_ok_iff rest (owners.insert c id)]
        constructor
        · rintro ⟨hnd, hfree⟩
          have hfresh : c ∉ rest.map Prod.snd := by
            intro hmem
            have := hfree c hmem
            simp at this
          refine ⟨⟨hfresh, hnd⟩, fun d hd => ?_⟩
          rcases List.mem_cons.1 hd with rfl | hd
          · exact hc
          · have hne : c ≠ d := fun e => hfresh (e ▸ hd)
            simpa [Std.ExtTreeMap.getElem?_insert, hne] using hfree d hd
        · rintro ⟨⟨hfresh, hnd⟩, hfree⟩
          refine ⟨hnd, fun d hd => ?_⟩
          have hne : c ≠ d := fun e => hfresh (e ▸ hd)
          simpa [Std.ExtTreeMap.getElem?_insert, hne] using
            hfree d (List.mem_cons_of_mem _ hd)

/-- The owners after giving: the old ones, and whoever holds the rest. -/
theorem getElem?_claim {c : String} {id : LoopId} :
    ∀ (held : List (LoopId × String)) (owners given : NameMap LoopId),
      claim owners held = .ok given →
      (given[c]? = some id ↔ owners[c]? = some id ∨ (id, c) ∈ held)
  | [], owners, given, hgiven => by
      cases hgiven
      simp
  | (i, d) :: rest, owners, given, hgiven => by
      cases hd : owners[d]? with
      | some owner => simp [claim, hd] at hgiven
      | none =>
        simp only [claim, hd] at hgiven
        rw [getElem?_claim rest _ given hgiven, Std.ExtTreeMap.getElem?_insert]
        by_cases hdc : d = c
        · subst hdc
          simp [hd, eq_comm]
        · have hcd : c ≠ d := fun e => hdc e.symm
          simp [hdc, hcd]

/-! ## Forests with their indices -/

/-- The indices of a linked forest, made afresh. -/
theorem Linked.indexed_eq (h : t.Linked) :
    t.indexed = do
      let owners ← claim ∅ (t.held t.listing)
      return { t with
        computations := t.listing.flatMap t.computationsOf
        owners
        ranks := rankFrom 1 ∅ (t.listing.flatMap t.computationsOf) } := by
  rw [indexed, h.order_eq, ← map_snd_held]
  show (t.holdings t.listing >>= _) = _
  rw [h.holdings_listing]
  rfl

/-- A linked forest of loops named after their ids, with the indices that it
would get afresh. -/
structure Sound (t : Forest) : Prop extends Linked t where
  named : ∀ {id : LoopId} {n : Node}, t.nodes[id]? = some n → n.name = id.text
  indexed : t.indexed = .ok t

namespace Sound

theorem indices_eq (h : t.Sound) :
    t.computations = t.listing.flatMap t.computationsOf ∧
      claim ∅ (t.held t.listing) = .ok t.owners ∧
      t.ranks = rankFrom 1 ∅ t.computations := by
  have hi := h.indexed
  rw [h.toLinked.indexed_eq] at hi
  cases hc : claim ∅ (t.held t.listing) with
  | error e =>
    rw [hc] at hi
    cases hi
  | ok owners =>
    rw [hc] at hi
    have ht := Except.ok.inj hi
    have hcomp := congrArg Forest.computations ht
    have hown := congrArg Forest.owners ht
    have hrank := congrArg Forest.ranks ht
    simp only at hcomp hown hrank
    exact ⟨hcomp.symm, by rw [hown], by rw [← hcomp, hrank]⟩

/-- The owner of a computation is the loop directly around it. -/
theorem owner_iff (h : t.Sound) {c : String} {id : LoopId} :
    t.owners[c]? = some id ↔ ∃ n, t.nodes[id]? = some n ∧ c ∈ n.computations := by
  rw [getElem?_claim (t.held t.listing) ∅ t.owners h.indices_eq.2.1, mem_held,
    h.toLinked.mem_listing, ← mem_computationsOf]
  constructor
  · rintro (hnone | ⟨-, hc⟩)
    · simp at hnone
    · exact hc
  · intro hc
    obtain ⟨n, hn, -⟩ := mem_computationsOf.1 hc
    exact Or.inr ⟨⟨n, hn⟩, hc⟩

end Sound

end Forest

end LoopNest
