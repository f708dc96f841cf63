import LoopNest.Forest.Section
import LoopNest.Proofs.Forest.Walks

/-!
LoopNest.Proofs.Forest.Sections — sections cut a forest up.

`Chain` says what a section is, with the loops at which the next ones
start; what is inside its first loop is the section and all that is inside
those (`Chain.inside_eq`).  The breadth-first search takes a section off
its queue and puts its starts at the end, which is `Cut` without a budget
(`Linked.sectionsFrom_eq`).  So it finds the loops inside the queue, each in
one section and in one place there (`Cut.perm`).
-/

namespace LoopNest

namespace Forest

variable {t : Forest}

/-- A section from a loop down, with the children of its last loop.  Every
loop but the last has the next one as its only child and no work of its
own. -/
inductive Chain (t : Forest) : LoopId → Section → List LoopId → Prop where
  | last {id : LoopId} {n : Node} :
    t.nodes[id]? = some n → n.passThrough? = none → Chain t id [id] n.children
  | pass {id child : LoopId} {n : Node} {rest : Section} {starts : List LoopId} :
    t.nodes[id]? = some n → n.passThrough? = some child → Chain t child rest starts →
      Chain t id (id :: rest) starts

namespace Chain

theorem ne_nil {id : LoopId} {s : Section} {starts : List LoopId} (h : t.Chain id s starts) :
    s ≠ [] := by
  cases h <;> simp

theorem inside_eq (hlinked : t.Linked) {id : LoopId} {s : Section} {starts : List LoopId}
    (h : t.Chain id s starts) : t.inside id = s ++ starts.flatMap t.inside := by
  induction h with
  | last hn _ => rw [hlinked.inside_eq hn, List.singleton_append]
  | pass hn hchild _ ih =>
    obtain ⟨hchildren, -⟩ := Node.passThrough?_eq_some_iff.1 hchild
    rw [hlinked.inside_eq hn, hchildren, List.flatMap_singleton, ih, List.cons_append]

theorem exists_node_of_mem_starts (hlinked : t.Linked) {id : LoopId} {s : Section}
    {starts : List LoopId} (h : t.Chain id s starts) :
    ∀ x ∈ starts, ∃ m, t.nodes[x]? = some m := by
  induction h with
  | last hn _ =>
    intro x hx
    obtain ⟨m, hm, -⟩ := hlinked.below hn hx
    exact ⟨m, hm⟩
  | pass _ _ _ ih => exact ih

end Chain

/-! ## Finding sections -/

theorem Linked.chain_eq (h : t.Linked) : ∀ (fuel : Nat) {id : LoopId} {n : Node},
    t.nodes[id]? = some n → (t.inside id).length ≤ fuel →
    ∃ s starts, t.chain fuel id = .ok (s, starts) ∧ t.Chain id s starts
  | 0, id, n, hn, hf => by
      rw [h.inside_eq hn] at hf
      simp at hf
  | fuel + 1, id, n, hn, hf => by
      cases hchild : n.passThrough? with
      | none =>
        refine ⟨[id], n.children, ?_, .last hn hchild⟩
        simp only [chain, node_eq hn, ok_bind, hchild]
        rfl
      | some child =>
        obtain ⟨hchildren, -⟩ := Node.passThrough?_eq_some_iff.1 hchild
        obtain ⟨m, hm, -⟩ := h.below hn (c := child) (by simp [hchildren])
        have hinside : t.inside id = id :: t.inside child := by
          rw [h.inside_eq hn, hchildren, List.flatMap_singleton]
        rw [hinside, List.length_cons] at hf
        obtain ⟨rest, starts, hrest, hchain⟩ := chain_eq h fuel hm (by omega)
        refine ⟨id :: rest, starts, ?_, .pass hn hchild hchain⟩
        simp only [chain, node_eq hn, ok_bind, hchild, hrest]
        rfl

/-- With the starts of its first section at its end, a queue has the same
loops inside, the section excepted. -/
theorem Chain.perm (hlinked : t.Linked) {id : LoopId} {s : Section} {starts : List LoopId}
    (h : t.Chain id s starts) (queue : List LoopId) :
    (s ++ (queue ++ starts).flatMap t.inside).Perm ((id :: queue).flatMap t.inside) := by
  rw [List.flatMap_cons, h.inside_eq hlinked, List.flatMap_append, List.append_assoc]
  exact List.perm_append_comm.append_left s

/-- The sections that a queue leads to, in the order of the search. -/
inductive Cut (t : Forest) : List LoopId → List Section → Prop where
  | done : Cut t [] []
  | next {id : LoopId} {queue starts : List LoopId} {s : Section} {sections : List Section} :
    t.Chain id s starts → Cut t (queue ++ starts) sections → Cut t (id :: queue) (s :: sections)

/-- The sections are made of just the loops inside the queue. -/
theorem Cut.perm (hlinked : t.Linked) {queue : List LoopId} {sections : List Section}
    (h : t.Cut queue sections) : sections.flatten.Perm (queue.flatMap t.inside) := by
  induction h with
  | done => exact .refl []
  | @next id queue starts s sections hchain _ ih =>
    rw [List.flatten_cons]
    exact (ih.append_left s).trans (hchain.perm hlinked queue)

/-- With a budget for all that is inside the queue the search finds these
sections. -/
theorem Linked.sectionsFrom_eq (h : t.Linked) : ∀ (fuel : Nat) (queue : List LoopId),
    (∀ id ∈ queue, ∃ n, t.nodes[id]? = some n) → (queue.flatMap t.inside).length ≤ fuel →
    ∃ sections, t.sectionsFrom fuel queue = .ok sections ∧ t.Cut queue sections
  | _, [], _, _ => ⟨[], by simp [sectionsFrom], .done⟩
  | 0, id :: rest, hqueue, hf => by
      obtain ⟨n, hn⟩ := hqueue id (List.mem_cons_self ..)
      rw [List.flatMap_cons, h.inside_eq hn] at hf
      simp at hf
  | fuel + 1, id :: rest, hqueue, hf => by
      obtain ⟨n, hn⟩ := hqueue id (List.mem_cons_self ..)
      obtain ⟨s, starts, hfound, hchain⟩ := h.chain_eq t.size hn (h.length_inside_le hn)
      have hnext : ∀ x ∈ rest ++ starts, ∃ m, t.nodes[x]? = some m := by
        intro x hx
        rcases List.mem_append.1 hx with hx | hx
        · exact hqueue x (List.mem_cons_of_mem _ hx)
        · exact hchain.exists_node_of_mem_starts h x hx
      have hs : 0 < s.length := List.length_pos_of_ne_nil hchain.ne_nil
      have hfuel := (hchain.perm h rest).length_eq
      rw [List.length_append] at hfuel
      obtain ⟨sections, hsections, hrest⟩ :=
        sectionsFrom_eq h fuel (rest ++ starts) hnext (by omega)
      refine ⟨s :: sections, ?_, .next hchain hrest⟩
      simp only [sectionsFrom, hfound, ok_bind, hsections]
      rfl

/-- A computation on roots that never fails gives every root its value. -/
theorem perRoot_eq {α : Type} (f : LoopId → Except Error α) : ∀ (roots : List LoopId)
    (found : OrderedMap LoopId α), (∀ root ∈ roots, ∃ v, f root = .ok v) →
    ∃ out, perRoot f found roots = .ok out ∧
      (∀ root ∈ roots, ∃ v, f root = .ok v ∧ out.get? root = some v) ∧
      ∀ id ∉ roots, out.get? id = found.get? id
  | [], found, _ => ⟨found, rfl, by simp, by simp⟩
  | root :: rest, found, hf => by
      obtain ⟨v, hv⟩ := hf root (List.mem_cons_self ..)
      obtain ⟨out, hout, hin, hother⟩ := perRoot_eq f rest (found.insert root v)
        fun r hr => hf r (List.mem_cons_of_mem _ hr)
      refine ⟨out, by rw [perRoot, hv, ok_bind, hout], fun r hr => ?_, fun id hid => ?_⟩
      · by_cases hrest : r ∈ rest
        · exact hin r hrest
        · rcases List.mem_cons.1 hr with rfl | hr
          · exact ⟨v, hv, by rw [hother r hrest, OrderedMap.get?_insert_self]⟩
          · exact absurd hr hrest
      · rw [List.mem_cons, not_or] at hid
        rw [hother id hid.2, OrderedMap.get?_insert_of_ne _ _ fun e => hid.1 e.symm]

/-- Answers are listed in the order of the roots. -/
theorem keys_perRoot {α : Type} (f : LoopId → Except Error α) : ∀ (roots : List LoopId)
    (found out : OrderedMap LoopId α), (found.keys ++ roots).Nodup →
    perRoot f found roots = .ok out → out.keys = found.keys ++ roots
  | [], found, out, _, hout => by
      cases hout
      simp
  | root :: rest, found, out, hnd, hout => by
      obtain ⟨v, -, hrest⟩ := bind_eq_ok.1 hout
      have hfresh : root ∉ found.keys := fun hmem =>
        (List.nodup_append.1 hnd).2.2 root hmem root (List.mem_cons_self ..) rfl
      have hkeys : (found.insert root v).keys = found.keys ++ [root] := by
        rw [OrderedMap.keys_insert, if_neg hfresh]
      have hnd' : ((found.insert root v).keys ++ rest).Nodup := by
        rwa [hkeys, List.append_assoc, List.singleton_append]
      rw [keys_perRoot f rest _ out hnd' hrest, hkeys, List.append_assoc, List.singleton_append]

/-- Every root has its sections, in the order of the roots. -/
theorem Linked.sections_eq (h : t.Linked) :
    ∃ found, t.sections = .ok found ∧ found.keys = t.roots ∧
      ∀ root ∈ t.roots, ∃ sections, found.get? root = some sections ∧ t.Cut [root] sections := by
  have hroot : ∀ root ∈ t.roots, ∃ sections, t.sectionsFrom t.size [root] = .ok sections ∧
      t.Cut [root] sections := by
    intro root hr
    obtain ⟨n, hn, -⟩ := h.exists_node_of_mem_roots hr
    exact h.sectionsFrom_eq t.size [root] (by simp [hn]) (by simpa using h.length_inside_le hn)
  obtain ⟨found, hfound, hget, -⟩ := perRoot_eq (fun root => t.sectionsFrom t.size [root])
    t.roots .empty fun root hr => (hroot root hr).imp fun _ hs => hs.1
  refine ⟨found, hfound, keys_perRoot _ t.roots .empty found h.roots_nodup hfound,
    fun root hr => ?_⟩
  obtain ⟨v, hv, hat⟩ := hget root hr
  obtain ⟨sections, hsections, hcut⟩ := hroot root hr
  rw [hv] at hsections
  cases hsections
  exact ⟨v, hat, hcut⟩

end Forest

end LoopNest
