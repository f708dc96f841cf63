import LoopNest.Proofs.Forest.Lookup
import LoopNest.Proofs.Forest.Reachable
import LoopNest.Proofs.Forest.Sections
import Mathlib.Data.List.Pairwise

/-!
LoopNest.Proofs.Forest.SectionOrder — in which order sections come.

Between a section and the root lie other sections, and their number says
when the search comes to it.  At any time the queue holds starts of one such
depth followed by starts of the next (`Layered`), and what is inside the
later ones comes first in the pre-order: so sections of one depth are found
in pre-order of their first loops (`Cut.inOrder`), and no loop is found
before a loop around it (`Cut.outside_in`).

* `Chain.above_iff` — the loops above a start: the section that it hangs from
  and the loops above that;
* `SectionDepth`, `Cut.length_sectionsAbove` — the depth of a section counts the
  sections above it;
* `Sectioned`, `Reachable.sections_sectioned` — everything about the sections of
  a root.
-/

namespace LoopNest

namespace Forest

variable {t : Forest}

/-! ## Loops above a loop -/

/-- A loop lies strictly above another. -/
def Above (t : Forest) (a id : LoopId) : Prop := t.isAncestor a id = .ok true

instance (t : Forest) (a id : LoopId) : Decidable (t.Above a id) :=
  inferInstanceAs (Decidable (t.isAncestor a id = .ok true))

theorem Above.exists_nodes {a id : LoopId} (h : t.Above a id) :
    (∃ m, t.nodes[a]? = some m) ∧ ∃ n, t.nodes[id]? = some n := by
  obtain ⟨n, hn, h⟩ := bind_eq_ok.1 h
  obtain ⟨m, hm, -⟩ := bind_eq_ok.1 h
  exact ⟨⟨m, node_eq_ok_iff.1 hm⟩, n, node_eq_ok_iff.1 hn⟩

namespace Linked

theorem above_iff (h : t.Linked) {a id : LoopId} {m n : Node} (hm : t.nodes[a]? = some m)
    (hn : t.nodes[id]? = some n) : t.Above a id ↔ id ≠ a ∧ id ∈ t.inside a := by
  simp [Above, h.isAncestor_eq hm hn]

theorem not_above_root (h : t.Linked) {a root : LoopId} (hroot : root ∈ t.roots) :
    ¬ t.Above a root := by
  intro ha
  obtain ⟨⟨m, hm⟩, n, hn⟩ := ha.exists_nodes
  rw [h.above_iff hm hn, h.strictly_inside_iff hm hn, (h.mem_roots_iff hn).1 hroot] at ha
  simp at ha

/-- Above a child lie its parent and what is above that. -/
theorem above_child_iff (h : t.Linked) {a id c : LoopId} {n : Node} (hn : t.nodes[id]? = some n)
    (hc : c ∈ n.children) : t.Above a c ↔ a = id ∨ t.Above a id := by
  obtain ⟨k, hk, hp, -⟩ := h.child hn hc
  cases hm : t.nodes[a]? with
  | none =>
    have hgone : ∀ x, ¬ t.Above a x := fun x hx => by
      obtain ⟨⟨m, hm'⟩, -⟩ := hx.exists_nodes
      simp [hm] at hm'
    have hne : a ≠ id := by
      rintro rfl
      simp [hm] at hn
    simp [hgone, hne]
  | some m =>
    rw [h.above_iff hm hk, h.strictly_inside_iff hm hk, h.above_iff hm hn, hp]
    by_cases hid : a = id
    · subst hid
      simp [h.self_mem_inside hn]
    · simp [hid, Ne.symm hid]

/-- What is inside a loop is not above it. -/
theorem not_above_of_mem_inside (h : t.Linked) {x id : LoopId} {n : Node}
    (hn : t.nodes[id]? = some n) (hx : x ∈ t.inside id) : ¬ t.Above x id := by
  intro habove
  obtain ⟨m, hm⟩ := h.exists_node_of_mem_inside hn hx
  obtain ⟨hne, hid⟩ := (h.above_iff hm hn).1 habove
  have hle := h.level_le_of_mem_inside hn hm hx
  have hge := h.level_le_of_mem_inside hm hn hid
  exact hne (h.eq_of_mem_inside hn hm (by omega) hn (h.self_mem_inside hn) hid)

/-- What is above a loop inside a root is inside this root. -/
theorem mem_inside_root_of_above (h : t.Linked) {a x root : LoopId} (hroot : root ∈ t.roots)
    (hx : x ∈ t.inside root) (ha : t.Above a x) : a ∈ t.inside root := by
  obtain ⟨⟨m, hm⟩, n, hn⟩ := ha.exists_nodes
  obtain ⟨r, hr, har⟩ := List.mem_flatMap.1 (h.mem_listing.2 ⟨m, hm⟩)
  obtain ⟨k, hk, -, hkl⟩ := h.exists_node_of_mem_roots hr
  obtain ⟨q, hq, -, hql⟩ := h.exists_node_of_mem_roots hroot
  have hxr := h.mem_inside_trans hk hm hn har ((h.above_iff hm hn).1 ha).2
  rwa [← h.eq_of_mem_inside hk hq (hkl.trans hql.symm) hn hxr hx]

end Linked

/-! ## One section -/

/-- A loop that is passed through on the way to the one given: its only child,
and it has no work of its own. -/
def PassesTo (t : Forest) (id child : LoopId) : Prop :=
  ∃ n : Node, t.nodes[id]? = some n ∧ n.children = [child] ∧ n.computations = []

namespace Chain

variable {id : LoopId} {s : Section} {starts : List LoopId}

theorem head?_eq (h : t.Chain id s starts) : s.head? = some id := by
  cases h <;> rfl

theorem exists_node (h : t.Chain id s starts) : ∃ n, t.nodes[id]? = some n := by
  cases h with
  | last hn _ => exact ⟨_, hn⟩
  | pass hn _ _ => exact ⟨_, hn⟩

/-- A section is known from its first loop. -/
theorem unique (h : t.Chain id s starts) {o : Section} {others : List LoopId}
    (h' : t.Chain id o others) : s = o ∧ starts = others := by
  induction h generalizing o with
  | last hn hstop =>
    cases h' with
    | last hn' _ =>
      rw [hn] at hn'
      cases hn'
      exact ⟨rfl, rfl⟩
    | pass hn' hchild _ =>
      rw [hn] at hn'
      cases hn'
      rw [hstop] at hchild
      cases hchild
  | pass hn hchild _ ih =>
    cases h' with
    | last hn' hstop =>
      rw [hn] at hn'
      cases hn'
      rw [hstop] at hchild
      cases hchild
    | pass hn' hchild' hrest =>
      rw [hn] at hn'
      cases hn'
      rw [hchild] at hchild'
      cases hchild'
      obtain ⟨rfl, rfl⟩ := ih hrest
      exact ⟨rfl, rfl⟩

/-- All but the last loop are passed through. -/
theorem isChain (h : t.Chain id s starts) : s.IsChain t.PassesTo := by
  induction h with
  | last _ _ => simp
  | @pass id child n rest starts hn hchild hrest ih =>
    cases rest with
    | nil => simp
    | cons x more =>
      have hx : some x = some child := hrest.head?_eq
      cases hx
      exact List.isChain_cons_cons.2 ⟨⟨n, hn, Node.passThrough?_eq_some_iff.1 hchild⟩, ih⟩

/-- The last loop is not, and its children are the starts. -/
theorem getLast?_eq (h : t.Chain id s starts) : ∃ x n, s.getLast? = some x ∧
    t.nodes[x]? = some n ∧ n.isPassThrough = false ∧ n.children = starts := by
  induction h with
  | @last id n hn hstop => exact ⟨id, n, rfl, hn, by simp [Node.isPassThrough, hstop], rfl⟩
  | pass _ _ hrest ih =>
    obtain ⟨x, n, hx, hn⟩ := ih
    exact ⟨x, n, by rw [List.getLast?_cons, hx]; rfl, hn⟩

/-- Above a start lie the loops of the section and those above it. -/
theorem above_iff (hlinked : t.Linked) (h : t.Chain id s starts) {a c : LoopId}
    (hc : c ∈ starts) : t.Above a c ↔ a ∈ s ∨ t.Above a id := by
  induction h with
  | last hn _ => rw [hlinked.above_child_iff hn hc, List.mem_singleton]
  | @pass id child n rest starts hn hchild _ ih =>
    obtain ⟨hchildren, -⟩ := Node.passThrough?_eq_some_iff.1 hchild
    rw [ih hc, hlinked.above_child_iff hn (by simp [hchildren]), List.mem_cons]
    grind

/-- Within a section outer loops come first. -/
theorem pairwise_not_above (hlinked : t.Linked) (h : t.Chain id s starts) :
    s.Pairwise fun x y => ¬ t.Above y x := by
  induction h with
  | last _ _ => simp
  | @pass id child n rest starts hn hchild hrest ih =>
    refine List.pairwise_cons.2 ⟨fun y hy => ?_, ih⟩
    refine hlinked.not_above_of_mem_inside hn ?_
    rw [(Chain.pass hn hchild hrest).inside_eq hlinked]
    exact List.mem_append_left _ (List.mem_cons_of_mem _ hy)

theorem mem_inside (hlinked : t.Linked) (h : t.Chain id s starts) {x : LoopId} (hx : x ∈ s) :
    x ∈ t.inside id := by
  rw [h.inside_eq hlinked]
  exact List.mem_append_left _ hx

/-- No start is a loop of the section. -/
theorem disjoint (hlinked : t.Linked) (h : t.Chain id s starts) {c : LoopId} (hc : c ∈ starts) :
    c ∉ s := by
  obtain ⟨n, hn⟩ := h.exists_node
  obtain ⟨m, hm⟩ := h.exists_node_of_mem_starts hlinked c hc
  have hnd := hlinked.nodup_inside hn
  rw [h.inside_eq hlinked] at hnd
  intro hcs
  have hmem := List.mem_flatMap.2 ⟨c, hc, hlinked.self_mem_inside hm⟩
  exact (List.nodup_append.1 hnd).2.2 c hcs c hmem rfl

end Chain

/-! ## Sections and starts -/

namespace Cut

variable {queue : List LoopId} {sections : List Section}

theorem exists_section (h : t.Cut queue sections) {id : LoopId} (hid : id ∈ queue) :
    ∃ s ∈ sections, ∃ starts, t.Chain id s starts := by
  induction h with
  | done => simp at hid
  | @next id' queue starts s sections hchain _ ih =>
    rcases List.mem_cons.1 hid with rfl | hid
    · exact ⟨s, List.mem_cons_self .., starts, hchain⟩
    · obtain ⟨o, ho, hstart⟩ := ih (List.mem_append_left _ hid)
      exact ⟨o, List.mem_cons_of_mem _ ho, hstart⟩

/-- Where a section ends, the next ones are found. -/
theorem exists_next (h : t.Cut queue sections) {id c : LoopId} {s : Section}
    {starts : List LoopId} (hs : s ∈ sections) (hchain : t.Chain id s starts) (hc : c ∈ starts) :
    ∃ o ∈ sections, ∃ others, t.Chain c o others := by
  induction h with
  | done => simp at hs
  | @next id' queue starts' s' sections hchain' hrest ih =>
    rcases List.mem_cons.1 hs with rfl | hs
    · obtain rfl : id = id' :=
        Option.some.inj (hchain.head?_eq.symm.trans hchain'.head?_eq)
      obtain ⟨-, rfl⟩ := hchain.unique hchain'
      obtain ⟨o, ho, hstart⟩ := hrest.exists_section (List.mem_append_right queue hc)
      exact ⟨o, List.mem_cons_of_mem _ ho, hstart⟩
    · obtain ⟨o, ho, hstart⟩ := ih hs
      exact ⟨o, List.mem_cons_of_mem _ ho, hstart⟩

/-- A section starts at a loop of the queue or where another one ends. -/
theorem exists_origin (h : t.Cut queue sections) {s : Section} (hs : s ∈ sections) :
    ∃ id starts, t.Chain id s starts ∧ (id ∈ queue ∨
      ∃ o ∈ sections, ∃ x others, t.Chain x o others ∧ id ∈ others) := by
  induction h with
  | done => simp at hs
  | @next id' queue starts' s' sections hchain _ ih =>
    rcases List.mem_cons.1 hs with rfl | hs
    · exact ⟨id', starts', hchain, Or.inl (List.mem_cons_self ..)⟩
    · obtain ⟨id, starts, hid, horigin⟩ := ih hs
      refine ⟨id, starts, hid, ?_⟩
      rcases horigin with hid | ⟨o, ho, x, others, hx, hid⟩
      · rcases List.mem_append.1 hid with hid | hid
        · exact Or.inl (List.mem_cons_of_mem _ hid)
        · exact Or.inr ⟨s', List.mem_cons_self .., id', starts', hchain, hid⟩
      · exact Or.inr ⟨o, List.mem_cons_of_mem _ ho, x, others, hx, hid⟩

/-- No loop is found before a loop above it. -/
theorem pairwise_not_above (hlinked : t.Linked) (h : t.Cut queue sections)
    (hnd : (queue.flatMap t.inside).Nodup) :
    sections.flatten.Pairwise fun x y => ¬ t.Above y x := by
  induction h with
  | done => simp
  | @next id queue starts s sections hchain hrest ih =>
    have hnd := (hchain.perm hlinked queue).nodup_iff.2 hnd
    obtain ⟨-, hndRest, hdisjoint⟩ := List.nodup_append.1 hnd
    rw [List.flatten_cons]
    refine List.pairwise_append.2
      ⟨hchain.pairwise_not_above hlinked, ih hndRest, fun x hx y hy habove => ?_⟩
    -- with `y` inside a pending loop, so is whatever is inside `y`
    obtain ⟨z, hz, hyz⟩ := List.mem_flatMap.1 ((hrest.perm hlinked).mem_iff.1 hy)
    obtain ⟨_, -, _, hzchain⟩ := hrest.exists_section hz
    obtain ⟨k, hk⟩ := hzchain.exists_node
    obtain ⟨⟨m, hm⟩, n, hn⟩ := habove.exists_nodes
    have hxy := ((hlinked.above_iff hm hn).1 habove).2
    have hxz := hlinked.mem_inside_trans hk hm hn hyz hxy
    exact hdisjoint x hx x (List.mem_flatMap.2 ⟨z, hz, hxz⟩) rfl

end Cut

/-! ## The depth of a section -/

/-- A section starts so many sections below a root. -/
inductive SectionDepth (t : Forest) (root : LoopId) : LoopId → Nat → Prop where
  | root : SectionDepth t root root 0
  | next {id c : LoopId} {s : Section} {starts : List LoopId} {d : Nat} :
    SectionDepth t root id d → t.Chain id s starts → c ∈ starts → SectionDepth t root c (d + 1)

/-- The sections with a loop above a given loop. -/
def sectionsAbove (t : Forest) (sections : List Section) (id : LoopId) : List Section :=
  sections.filter fun o => o.any fun x => t.Above x id

theorem mem_sectionsAbove {sections : List Section} {id : LoopId} {o : Section} :
    o ∈ t.sectionsAbove sections id ↔ o ∈ sections ∧ ∃ x ∈ o, t.Above x id := by
  simp [sectionsAbove]

namespace Cut

variable {root : LoopId} {sections : List Section}

theorem exists_section_of_depth (h : t.Cut [root] sections) {id : LoopId} {d : Nat}
    (hd : t.SectionDepth root id d) : ∃ s ∈ sections, ∃ starts, t.Chain id s starts := by
  induction hd with
  | root => exact h.exists_section (List.mem_singleton_self root)
  | next _ hchain hc ih =>
    obtain ⟨s, hs, starts, hfound⟩ := ih
    obtain ⟨rfl, rfl⟩ := hchain.unique hfound
    exact h.exists_next hs hfound hc

/-- The sections of a root are made of the loops inside it. -/
theorem perm_inside (hlinked : t.Linked) (h : t.Cut [root] sections) :
    sections.flatten.Perm (t.inside root) := by
  have hperm := h.perm hlinked
  rwa [List.flatMap_singleton] at hperm

/-- No loop is in two sections, or in one section twice. -/
theorem nodup_flatten (hlinked : t.Linked) (hroot : root ∈ t.roots) (h : t.Cut [root] sections) :
    sections.flatten.Nodup := by
  obtain ⟨n, hn, -⟩ := hlinked.exists_node_of_mem_roots hroot
  exact (h.perm_inside hlinked).nodup_iff.2 (hlinked.nodup_inside hn)

theorem eq_of_mem (hlinked : t.Linked) (hroot : root ∈ t.roots) (h : t.Cut [root] sections)
    {s o : Section} {x : LoopId} (hs : s ∈ sections) (ho : o ∈ sections) (hxs : x ∈ s)
    (hxo : x ∈ o) : s = o := by
  have hdisjoint := (List.nodup_flatten.1 (h.nodup_flatten hlinked hroot)).2
  have : Std.Symm fun s o : Section => s.Disjoint o := ⟨fun _ _ hd _ ho hs => hd hs ho⟩
  by_contra hne
  exact hdisjoint.forall hs ho hne hxs hxo

theorem nodup (hlinked : t.Linked) (hroot : root ∈ t.roots) (h : t.Cut [root] sections) :
    sections.Nodup := by
  refine (List.nodup_flatten.1 (h.nodup_flatten hlinked hroot)).2.imp_of_mem ?_
  rintro s o hs - hdisjoint rfl
  obtain ⟨id, starts, hchain, -⟩ := h.exists_origin hs
  obtain ⟨x, hx⟩ := List.exists_mem_of_ne_nil s hchain.ne_nil
  exact hdisjoint hx hx

/-- The depth of a section is the number of sections above it. -/
theorem length_sectionsAbove (hlinked : t.Linked) (hroot : root ∈ t.roots)
    (h : t.Cut [root] sections) {id : LoopId} {d : Nat} (hd : t.SectionDepth root id d) :
    (t.sectionsAbove sections id).length = d := by
  induction hd with
  | root =>
    rw [List.length_eq_zero_iff, List.eq_nil_iff_forall_not_mem]
    intro o ho
    obtain ⟨-, x, -, hx⟩ := mem_sectionsAbove.1 ho
    exact hlinked.not_above_root hroot hx
  | @next id c s starts d hd hchain hc ih =>
    obtain ⟨o, ho, others, hfound⟩ := h.exists_section_of_depth hd
    obtain ⟨rfl, rfl⟩ := hchain.unique hfound
    obtain ⟨n, hn⟩ := hchain.exists_node
    have hnd : ∀ x, (t.sectionsAbove sections x).Nodup := fun _ =>
      (h.nodup hlinked hroot).filter _
    have hfresh : s ∉ t.sectionsAbove sections id := by
      intro hs
      obtain ⟨-, x, hx, habove⟩ := mem_sectionsAbove.1 hs
      exact hlinked.not_above_of_mem_inside hn (hchain.mem_inside hlinked hx) habove
    -- the section itself, and those that were above it already
    have hperm : (t.sectionsAbove sections c).Perm (s :: t.sectionsAbove sections id) := by
      refine (List.perm_ext_iff_of_nodup (hnd c) (List.nodup_cons.2 ⟨hfresh, hnd id⟩)).2
        fun o => ?_
      rw [List.mem_cons, mem_sectionsAbove, mem_sectionsAbove]
      simp only [hchain.above_iff hlinked hc]
      constructor
      · rintro ⟨hmem, x, hxo, hxs | hx⟩
        · exact Or.inl (h.eq_of_mem hlinked hroot hmem ho hxo hxs)
        · exact Or.inr ⟨hmem, x, hxo, hx⟩
      · rintro (rfl | ⟨hmem, x, hxo, hx⟩)
        · obtain ⟨x, hx⟩ := List.exists_mem_of_ne_nil o hchain.ne_nil
          exact ⟨ho, x, hx, Or.inl hx⟩
        · exact ⟨hmem, x, hxo, Or.inr hx⟩
    rw [hperm.length_eq, List.length_cons, ih]

end Cut

/-! ## The queue -/

/-- A queue of starts, those of one depth before those of the next.  In the
pre-order the latter come first: they hang from sections found before. -/
structure Layered (t : Forest) (root : LoopId) (order : List LoopId) (d : Nat)
    (now later : List LoopId) : Prop where
  depth_now : ∀ id ∈ now, t.SectionDepth root id d
  depth_later : ∀ id ∈ later, t.SectionDepth root id (d + 1)
  sublist : ((later ++ now).flatMap t.inside).Sublist order

namespace Layered

variable {root : LoopId} {order now later : List LoopId} {d : Nat}

theorem deeper (h : t.Layered root order d [] later) : t.Layered root order (d + 1) later [] where
  depth_now := h.depth_later
  depth_later := by simp
  sublist := by simpa using h.sublist

/-- One search step keeps the layers. -/
theorem step (hlinked : t.Linked) {id : LoopId} {s : Section} {starts : List LoopId}
    (h : t.Layered root order d (id :: now) later) (hchain : t.Chain id s starts) :
    t.Layered root order d now (later ++ starts) where
  depth_now := fun x hx => h.depth_now x (List.mem_cons_of_mem _ hx)
  depth_later := by
    intro x hx
    rcases List.mem_append.1 hx with hx | hx
    · exact h.depth_later x hx
    · exact .next (h.depth_now id (List.mem_cons_self ..)) hchain hx
  sublist := by
    refine List.Sublist.trans ?_ h.sublist
    simp only [List.flatMap_append, List.flatMap_cons, hchain.inside_eq hlinked, List.append_assoc]
    refine (List.Sublist.refl _).append ?_
    exact List.sublist_append_right s _

end Layered

/-- A section starts at a smaller depth than another, or at the same one and
before it in an order. -/
def Precedes (t : Forest) (root : LoopId) (order : List LoopId) (s o : Section) : Prop :=
  ∃ x y d e, s.head? = some x ∧ o.head? = some y ∧
    t.SectionDepth root x d ∧ t.SectionDepth root y e ∧
    (d < e ∨ d = e ∧ [x, y].Sublist order)

/-- Sections as a search finds them: none starts above some depth, those at
this depth start at given loops, and each precedes the next ones. -/
structure InOrder (t : Forest) (root : LoopId) (order : List LoopId) (d : Nat)
    (now : List LoopId) (sections : List Section) : Prop where
  depth : ∀ o ∈ sections, ∃ y e, o.head? = some y ∧ t.SectionDepth root y e ∧
    (e = d ∧ y ∈ now ∨ d < e)
  pairwise : sections.Pairwise (t.Precedes root order)

namespace InOrder

variable {root : LoopId} {order now later : List LoopId} {sections : List Section} {d : Nat}

theorem deeper (h : t.InOrder root order (d + 1) now sections) :
    t.InOrder root order d [] sections := by
  refine ⟨fun o ho => ?_, h.pairwise⟩
  obtain ⟨y, e, hy, he, hcase⟩ := h.depth o ho
  exact ⟨y, e, hy, he, Or.inr (by omega)⟩

/-- A section whose start comes first in the queue precedes all that are found
later. -/
theorem step (hlinked : t.Linked) {id : LoopId} {s : Section} {starts : List LoopId}
    (hlayered : t.Layered root order d (id :: now) later) (hchain : t.Chain id s starts)
    (hnow : ∀ y ∈ now, ∃ m, t.nodes[y]? = some m) (h : t.InOrder root order d now sections) :
    t.InOrder root order d (id :: now) (s :: sections) := by
  have hid := hlayered.depth_now id (List.mem_cons_self ..)
  refine ⟨fun o ho => ?_, List.pairwise_cons.2 ⟨fun o ho => ?_, h.pairwise⟩⟩
  · rcases List.mem_cons.1 ho with rfl | ho
    · exact ⟨id, d, hchain.head?_eq, hid, Or.inl ⟨rfl, List.mem_cons_self ..⟩⟩
    · obtain ⟨y, e, hy, he, hcase⟩ := h.depth o ho
      exact ⟨y, e, hy, he, hcase.imp_left fun hd => ⟨hd.1, List.mem_cons_of_mem _ hd.2⟩⟩
  · obtain ⟨y, e, hy, he, hcase⟩ := h.depth o ho
    refine ⟨id, y, d, e, hchain.head?_eq, hy, hid, he, ?_⟩
    rcases hcase with ⟨rfl, hmem⟩ | hlt
    · obtain ⟨n, hn⟩ := hchain.exists_node
      obtain ⟨m, hm⟩ := hnow y hmem
      have hinside := List.mem_flatMap.2 ⟨y, hmem, hlinked.self_mem_inside hm⟩
      have hpair : [id, y].Sublist (t.inside id ++ now.flatMap t.inside) :=
        (List.singleton_sublist.2 (hlinked.self_mem_inside hn)).append
          (List.singleton_sublist.2 hinside)
      refine Or.inr ⟨rfl, (hpair.trans ?_).trans hlayered.sublist⟩
      rw [List.flatMap_append, List.flatMap_cons]
      exact List.sublist_append_right _ _
    · exact Or.inl hlt

end InOrder

/-- From a queue in layers come sections of growing depth, those of one depth
in the given order. -/
theorem Cut.inOrder (hlinked : t.Linked) {root : LoopId} {order queue : List LoopId}
    {sections : List Section} (h : t.Cut queue sections) {now later : List LoopId} {d : Nat}
    (hqueue : queue = now ++ later) (hlayered : t.Layered root order d now later) :
    t.InOrder root order d now sections := by
  induction h generalizing now later d with
  | done => exact ⟨by simp, .nil⟩
  | @next id queue starts s sections hchain hrest ih =>
    have main : ∀ {now later : List LoopId} {d : Nat}, queue = now ++ later →
        t.Layered root order d (id :: now) later →
        t.InOrder root order d (id :: now) (s :: sections) := by
      intro now later d hqueue hlayered
      have hstarts : queue ++ starts = now ++ (later ++ starts) := by
        rw [hqueue, List.append_assoc]
      refine (ih hstarts (hlayered.step hlinked hchain)).step hlinked hlayered hchain ?_
      intro y hy
      obtain ⟨_, -, _, hfound⟩ := hrest.exists_section (hstarts ▸ List.mem_append_left _ hy)
      exact hfound.exists_node
    cases now with
    | cons id' now =>
      rw [List.cons_append] at hqueue
      obtain ⟨rfl, htail⟩ := List.cons.inj hqueue
      exact main htail hlayered
    | nil =>
      -- nothing is left of this depth: the queue is the next layer
      obtain rfl : id :: queue = later := hqueue
      exact (main (List.append_nil queue).symm hlayered.deeper).deeper

/-! ## All about the sections of a root -/

/-- Two members of a list stand one before the other. -/
theorem pair_sublist_or {l : List LoopId} {x y : LoopId} (hx : x ∈ l) (hy : y ∈ l) (hne : x ≠ y) :
    [x, y].Sublist l ∨ [y, x].Sublist l := by
  obtain ⟨before, after, rfl⟩ := List.append_of_mem hx
  rcases List.mem_append.1 hy with hy | hy
  · exact Or.inr ((List.singleton_sublist.2 hy).append (by simp))
  · have hy : y ∈ after := (List.mem_cons.1 hy).resolve_left (Ne.symm hne)
    exact Or.inl (((List.singleton_sublist.2 hy).cons_cons x).trans (List.sublist_append_right ..))

/-- Every loop of a root is found after all loops above it. -/
theorem Cut.outside_in (hlinked : t.Linked) {root : LoopId} (hroot : root ∈ t.roots)
    {sections : List Section} (h : t.Cut [root] sections) {a x : LoopId}
    (hx : x ∈ sections.flatten) (habove : t.Above a x) : [a, x].Sublist sections.flatten := by
  obtain ⟨⟨m, hm⟩, n, hn⟩ := habove.exists_nodes
  have hperm := h.perm_inside hlinked
  have ha := hperm.mem_iff.2 <|
    hlinked.mem_inside_root_of_above hroot (hperm.mem_iff.1 hx) habove
  have hne := ((hlinked.above_iff hm hn).1 habove).1
  rcases pair_sublist_or ha hx hne.symm with hax | hxa
  · exact hax
  · have hnd := (h.perm hlinked).nodup_iff.1 (h.nodup_flatten hlinked hroot)
    have hpairwise := (h.pairwise_not_above hlinked hnd).sublist hxa
    simp [habove] at hpairwise

/-- The sections of a root as they lie in the pre-order of the root. -/
structure Sectioned (t : Forest) (root : LoopId) (order : List LoopId)
    (sections : List Section) : Prop where
  /-- every loop inside the root is in one section, once -/
  covers : sections.flatten.Perm order ∧ order.Nodup
  /-- a section goes on from a loop without work to its only child -/
  passes : ∀ s ∈ sections, s.IsChain t.PassesTo
  /-- and stops at the first loop from which it cannot -/
  stops : ∀ s ∈ sections, ∃ id n, s.getLast? = some id ∧ t.nodes[id]? = some n ∧
    n.isPassThrough = false
  /-- the root's own section comes first -/
  first : ∃ s, sections.head? = some s ∧ s.head? = some root
  /-- every section starts at the root or below the end of another -/
  starts : ∀ s ∈ sections, s.head? = some root ∨ ∃ o ∈ sections, o ≠ s ∧ ∃ last n c,
    o.getLast? = some last ∧ t.nodes[last]? = some n ∧ c ∈ n.children ∧ s.head? = some c
  /-- the fewer sections above, the earlier; ties in pre-order -/
  ordered : sections.Pairwise fun s o => ∃ x y, s.head? = some x ∧ o.head? = some y ∧
    ((t.sectionsAbove sections x).length < (t.sectionsAbove sections y).length ∨
      (t.sectionsAbove sections x).length = (t.sectionsAbove sections y).length ∧
        [x, y].Sublist order)
  /-- every loop comes after all loops above it -/
  outside_in : ∀ x ∈ sections.flatten, ∀ a, t.isAncestor a x = .ok true →
    [a, x].Sublist sections.flatten

theorem Cut.sectioned (hlinked : t.Linked) {root : LoopId} (hroot : root ∈ t.roots)
    {sections : List Section} (h : t.Cut [root] sections) :
    t.Sectioned root (t.inside root) sections := by
  constructor
  case covers =>
    have hperm := h.perm_inside hlinked
    exact ⟨hperm, hperm.nodup_iff.1 (h.nodup_flatten hlinked hroot)⟩
  case passes =>
    intro s hs
    obtain ⟨_, _, hchain, -⟩ := h.exists_origin hs
    exact hchain.isChain
  case stops =>
    intro s hs
    obtain ⟨_, _, hchain, -⟩ := h.exists_origin hs
    obtain ⟨id, n, hid, hn, hstop, -⟩ := hchain.getLast?_eq
    exact ⟨id, n, hid, hn, hstop⟩
  case first =>
    cases h with
    | @next _ _ _ s _ hchain _ => exact ⟨s, rfl, hchain.head?_eq⟩
  case starts =>
    intro s hs
    obtain ⟨c, starts, hchain, horigin⟩ := h.exists_origin hs
    rcases horigin with hc | ⟨o, ho, x, others, hx, hc⟩
    · exact Or.inl (List.mem_singleton.1 hc ▸ hchain.head?_eq)
    · obtain ⟨last, n, hlast, hn, -, hchildren⟩ := hx.getLast?_eq
      refine Or.inr ⟨o, ho, ?_, last, n, c, hlast, hn, hchildren ▸ hc, hchain.head?_eq⟩
      rintro rfl
      exact hx.disjoint hlinked hc (List.mem_of_mem_head? hchain.head?_eq)
  case ordered =>
    have hlayered : t.Layered root (t.inside root) 0 [root] [] :=
      ⟨fun id hid => List.mem_singleton.1 hid ▸ .root, by simp, by simp⟩
    refine (h.inOrder hlinked rfl hlayered).pairwise.imp ?_
    rintro s o ⟨x, y, d, e, hx, hy, hd, he, hcase⟩
    refine ⟨x, y, hx, hy, ?_⟩
    rwa [h.length_sectionsAbove hlinked hroot hd, h.length_sectionsAbove hlinked hroot he]
  case outside_in => exact fun x hx a ha => h.outside_in hlinked hroot hx ha

/-- In every forest that occurs, sections are found for all roots, in the order
of the roots, and cut each root into maximal chains: each loop lies in one of
them, they are listed from the root outwards in, and so are their loops. -/
theorem Reachable.sections_sectioned (h : t.Reachable) :
    ∃ found, t.sections = .ok found ∧ found.keys = t.roots ∧
      ∀ root sections, found.get? root = some sections →
        ∃ order, t.preorder root = .ok order ∧ t.Sectioned root order sections := by
  have hlinked := h.sound.toLinked
  obtain ⟨found, hfound, hkeys, hroot⟩ := hlinked.sections_eq
  refine ⟨found, hfound, hkeys, fun root sections hsections => ?_⟩
  have hmem : root ∈ t.roots := hkeys ▸ OrderedMap.mem_keys.2 ⟨sections, hsections⟩
  obtain ⟨n, hn, -⟩ := hlinked.exists_node_of_mem_roots hmem
  obtain ⟨cut, hget, hcut⟩ := hroot root hmem
  rw [hsections] at hget
  cases hget
  exact ⟨t.inside root, hlinked.preorder_eq hn, hcut.sectioned hlinked hmem⟩

/-- The sections of `branching`: the root, then `j`, then the chain of `k` and
`l`. -/
theorem branching_sectioned :
    ∃ t sections order, ofTable .branching = .ok t ∧ t.preorder ⟨"i"⟩ = .ok order ∧
      t.Sectioned ⟨"i"⟩ order sections ∧ sections = [[⟨"i"⟩], [⟨"j"⟩], [⟨"k"⟩, ⟨"l"⟩]] := by
  obtain ⟨t, ht⟩ : ∃ t, ofTable .branching = .ok t := ⟨_, rfl⟩
  obtain ⟨found, hfound, hkeys, hroot⟩ := Reachable.sections_sectioned (.built ht)
  obtain ⟨sections, hsections, hcut⟩ : ∃ sections, found.get? ⟨"i"⟩ = some sections ∧
      sections = [[⟨"i"⟩], [⟨"j"⟩], [⟨"k"⟩, ⟨"l"⟩]] := by
    cases ht
    cases hfound
    exact ⟨_, rfl, rfl⟩
  obtain ⟨order, horder, hsectioned⟩ := hroot ⟨"i"⟩ sections hsections
  exact ⟨t, sections, order, ht, horder, hsectioned, hcut⟩

end Forest

end LoopNest
