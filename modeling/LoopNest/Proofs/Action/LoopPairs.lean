import LoopNest.Proofs.Action.Writing
import LoopNest.Proofs.Forest.SectionOrder
import LoopNest.Action.Candidate
import Mathlib.Logic.Relation

/-!
LoopNest.Proofs.Action.LoopPairs — the candidates of two loops.

Skewing and tiling take two successive loops of one section.  A section goes
on exactly from the loops that are passed through, so the pairs can be read
off the single loops, with no sections at all (`Chain.adjacentPairs_eq`):
a loop without work of its own, with its only child.

An interchange takes two loops of which one is a sibling of the other or
inside it.  The search asks only whether the loop that the walk meets first
lies above the other; a walk meets what is above a loop before the loop
(`Linked.pairwise_not_above_inside`), so no pair is missed.

* `Reachable.passing_candidates` — skewing and tiling;
* `orderedPairs` — pairs in the order of a list, and their positions in it;
* `Kin` — the relation as the links tell it, `Linked.related_iff_kin` as the
  queries do;
* `Reachable.interchange_candidates` — interchange.
-/

namespace LoopNest

namespace Forest

variable {t : Forest}

/-! ## Loops that are passed through -/

/-- The pair that a loop makes with its only child, if it has no work of its
own. -/
def passingPair? (t : Forest) (id : LoopId) : Option Candidate :=
  (t.nodes[id]?.bind Node.passThrough?).map fun child => [id, child]

theorem passingPair?_eq_some_iff {id : LoopId} {pair : Candidate} :
    t.passingPair? id = some pair ↔ ∃ child, pair = [id, child] ∧ t.PassesTo id child := by
  simp only [passingPair?, Option.map_eq_some_iff, Option.bind_eq_some_iff,
    Node.passThrough?_eq_some_iff]
  constructor
  · rintro ⟨child, hpasses, rfl⟩
    exact ⟨child, rfl, hpasses⟩
  · rintro ⟨child, rfl, hpasses⟩
    exact ⟨child, hpasses, rfl⟩

theorem isSome_passingPair? (t : Forest) (id : LoopId) :
    (t.passingPair? id).isSome = t.nodes[id]?.any Node.isPassThrough := by
  cases hn : t.nodes[id]? <;> simp [passingPair?, hn, Node.isPassThrough]

/-- The pairs of a section are those of its loops.  The last loop has none. -/
theorem Chain.adjacentPairs_eq {id : LoopId} {s : Section} {starts : List LoopId}
    (h : t.Chain id s starts) : adjacentPairs s = s.filterMap t.passingPair? := by
  induction h with
  | last hn hstop => simp [adjacentPairs, passingPair?, hn, hstop]
  | @pass id child n rest starts hn hchild hrest ih =>
    obtain ⟨more, rfl⟩ : ∃ more, rest = child :: more :=
      List.head?_eq_some_iff.1 hrest.head?_eq
    have hpair : t.passingPair? id = some [id, child] := by simp [passingPair?, hn, hchild]
    rw [List.filterMap_cons_some hpair, ← ih, adjacentPairs]

theorem Cut.adjacentPairs_eq {queue : List LoopId} {sections : List Section}
    (h : t.Cut queue sections) :
    sections.flatMap adjacentPairs = sections.flatten.filterMap t.passingPair? := by
  rw [List.filterMap_flatten, List.flatMap_def]
  congr 1
  refine List.map_congr_left fun s hs => ?_
  obtain ⟨_, _, hchain, -⟩ := h.exists_origin hs
  exact hchain.adjacentPairs_eq

/-- A loop that is passed through lies one level above the next one, and all
its computations lie inside that one. -/
theorem Linked.of_passesTo (h : t.Linked) {outer inner : LoopId}
    (hpasses : t.PassesTo outer inner) :
    (∃ level, t.levels [outer, inner] = .ok [level, level + 1]) ∧
      ∃ computations, t.subtreeComputations outer = .ok computations ∧
        t.subtreeComputations inner = .ok computations := by
  obtain ⟨n, hn, hchildren, hcomputations⟩ := hpasses
  obtain ⟨m, hm, -, hlevel⟩ := h.child hn (c := inner) (by simp [hchildren])
  refine ⟨⟨n.level, ?_⟩, _, h.subtreeComputations_eq hn, ?_⟩
  · rw [← hlevel]
    simp only [levels, node_eq hn, node_eq hm, ok_bind]
    rfl
  · rw [h.subtreeComputations_eq hm, h.inside_eq hn, hchildren, List.flatMap_singleton,
      List.flatMap_cons, computationsOf_eq hn, hcomputations, List.nil_append]

/-- The candidates for skewing, and those for tiling, are the loops without
work of their own and with one child, each paired with this child.

Every root has its candidates.  A loop inside the root is the first of just
one pair if it is such a loop, and of none otherwise; so there are as many
pairs as such loops.  The two loops of a pair lie at successive levels and
have the same computations inside. -/
theorem Reachable.passing_candidates (h : t.Reachable) {kind : Kind}
    (hkind : kind = .skewing ∨ kind = .tiling2d) :
    ∃ found, kind.candidates t = .ok found ∧ found.keys = t.roots ∧
      ∀ root ∈ t.roots, ∃ pairs order, found.get? root = some pairs ∧
        t.preorder root = .ok order ∧
        pairs.Nodup ∧
        (∀ pair, pair ∈ pairs ↔ ∃ outer inner, pair = [outer, inner] ∧ outer ∈ order ∧
          t.PassesTo outer inner) ∧
        pairs.length = order.countP (fun id => t.nodes[id]?.any Node.isPassThrough) ∧
        ∀ outer inner, [outer, inner] ∈ pairs →
          (∃ level, t.levels [outer, inner] = .ok [level, level + 1]) ∧
          ∃ computations, t.subtreeComputations outer = .ok computations ∧
            t.subtreeComputations inner = .ok computations := by
  have hlinked := h.sound.toLinked
  obtain ⟨sections, hsections, hkeys, hroot⟩ := hlinked.sections_eq
  have hfound : kind.candidates t =
      .ok (sections.map fun _ sections => sections.flatMap adjacentPairs) := by
    rcases hkind with rfl | rfl <;> simp only [Kind.candidates, hsections, ok_bind] <;> rfl
  refine ⟨_, hfound, by rw [OrderedMap.keys_map, hkeys], fun root hr => ?_⟩
  obtain ⟨cut, hget, hcut⟩ := hroot root hr
  obtain ⟨n, hn, -⟩ := hlinked.exists_node_of_mem_roots hr
  have hperm : (cut.flatMap adjacentPairs).Perm ((t.inside root).filterMap t.passingPair?) := by
    rw [hcut.adjacentPairs_eq]
    exact (hcut.perm_inside hlinked).filterMap _
  have hmem : ∀ pair, pair ∈ cut.flatMap adjacentPairs ↔
      ∃ outer inner, pair = [outer, inner] ∧ outer ∈ t.inside root ∧ t.PassesTo outer inner := by
    intro pair
    rw [hperm.mem_iff, List.mem_filterMap]
    constructor
    · rintro ⟨outer, houter, hpair⟩
      obtain ⟨inner, hpair, hpasses⟩ := passingPair?_eq_some_iff.1 hpair
      exact ⟨outer, inner, hpair, houter, hpasses⟩
    · rintro ⟨outer, inner, hpair, houter, hpasses⟩
      exact ⟨outer, houter, passingPair?_eq_some_iff.2 ⟨inner, hpair, hpasses⟩⟩
  refine ⟨_, t.inside root, by rw [OrderedMap.get?_map, hget]; rfl, hlinked.preorder_eq hn,
    ?_, hmem, ?_, ?_⟩
  · -- a pair names the loop that it is read off
    refine hperm.nodup_iff.2 ((hlinked.nodup_inside hn).filterMap fun a b pair ha hb => ?_)
    obtain ⟨_, rfl, -⟩ := passingPair?_eq_some_iff.1 ha
    obtain ⟨_, hpair, -⟩ := passingPair?_eq_some_iff.1 hb
    exact (List.cons.inj hpair).1
  · rw [hperm.length_eq, List.length_filterMap_eq_countP]
    simp only [isSome_passingPair?]
  · intro outer inner hpair
    obtain ⟨x, y, hxy, -, hpasses⟩ := (hmem _).1 hpair
    cases hxy
    exact hlinked.of_passesTo hpasses

/-- In `branching`, its loops `i` and `k` exchanged, `i` is passed through and no
other loop is, so there is one pair to tile. -/
theorem branching_passing :
    ∃ t u, ofTable .branching = .ok t ∧ t.interchange ⟨"i"⟩ ⟨"k"⟩ = .ok u ∧
      ∃ found pairs, Kind.tiling2d.candidates u = .ok found ∧
        found.get? ⟨"k"⟩ = some pairs ∧ pairs.length = 1 ∧ [⟨"i"⟩, ⟨"l"⟩] ∈ pairs := by
  obtain ⟨t, ht⟩ : ∃ t, ofTable .branching = .ok t := ⟨_, rfl⟩
  obtain ⟨u, hu⟩ : ∃ u, t.interchange ⟨"i"⟩ ⟨"k"⟩ = .ok u := by
    cases ht
    exact ⟨_, rfl⟩
  obtain ⟨hroots, hpreorder, hpasses, hcount⟩ : ⟨"k"⟩ ∈ u.roots ∧
      u.preorder ⟨"k"⟩ = .ok [⟨"k"⟩, ⟨"j"⟩, ⟨"i"⟩, ⟨"l"⟩] ∧ u.PassesTo ⟨"i"⟩ ⟨"l"⟩ ∧
      [(⟨"k"⟩ : LoopId), ⟨"j"⟩, ⟨"i"⟩, ⟨"l"⟩].countP
        (fun id => u.nodes[id]?.any Node.isPassThrough) = 1 := by
    cases ht
    cases hu
    exact ⟨by decide +kernel, rfl, ⟨_, rfl, by decide +kernel, by decide +kernel⟩,
      by decide +kernel⟩
  obtain ⟨found, hfound, -, hroot⟩ :=
    Reachable.passing_candidates (.interchanged (.built ht) hu) (Or.inr rfl)
  obtain ⟨pairs, order, hpairs, horder, -, hmem, hlength, -⟩ := hroot _ hroots
  rw [hpreorder] at horder
  cases horder
  exact ⟨t, u, ht, hu, found, pairs, hfound, hpairs, hlength.trans hcount,
    (hmem _).2 ⟨⟨"i"⟩, ⟨"l"⟩, rfl, by simp, hpasses⟩⟩

/-! ## Pairs in the order of a list -/

/-- The pairs of a list of which the first element stands before the second and
a relation holds. -/
def orderedPairs (related : LoopId → LoopId → Bool) : List LoopId → List Candidate
  | [] => []
  | first :: rest =>
    (rest.filter (related first)).map (fun second => [first, second]) ++ orderedPairs related rest

theorem mem_orderedPairs {related : LoopId → LoopId → Bool} {pair : Candidate} :
    ∀ ids : List LoopId, pair ∈ orderedPairs related ids ↔
      ∃ a b, pair = [a, b] ∧ [a, b].Sublist ids ∧ related a b = true
  | [] => by simp [orderedPairs]
  | first :: rest => by
      simp only [orderedPairs, List.mem_append, List.mem_map, List.mem_filter,
        mem_orderedPairs rest]
      constructor
      · rintro (⟨second, ⟨hsecond, hrelated⟩, rfl⟩ | ⟨a, b, rfl, hsub, hrelated⟩)
        · exact ⟨first, second, rfl, (List.singleton_sublist.2 hsecond).cons_cons first, hrelated⟩
        · exact ⟨a, b, rfl, hsub.cons first, hrelated⟩
      · rintro ⟨a, b, rfl, hsub, hrelated⟩
        rcases List.sublist_cons_iff.1 hsub with hsub | ⟨more, hmore, hsub⟩
        · exact Or.inr ⟨a, b, rfl, hsub, hrelated⟩
        · obtain ⟨rfl, rfl⟩ := List.cons.inj hmore
          exact Or.inl ⟨b, ⟨List.singleton_sublist.1 hsub, hrelated⟩, rfl⟩

/-- Where a position grows along a list, pairs come in the lexicographic order
of their positions. -/
theorem pairwise_orderedPairs (related : LoopId → LoopId → Bool) {position : LoopId → Nat} :
    ∀ {ids : List LoopId}, ids.Pairwise (fun a b => position a < position b) →
      (orderedPairs related ids).Pairwise fun c d => c.map position < d.map position
  | [], _ => .nil
  | first :: rest, h => by
      obtain ⟨hfirst, hrest⟩ := List.pairwise_cons.1 h
      refine List.pairwise_append.2 ⟨?_, pairwise_orderedPairs related hrest, ?_⟩
      · -- pairs with one first loop are told apart by the second
        refine List.pairwise_map.2 ((hrest.filter _).imp fun hlt => ?_)
        simp [List.cons_lt_cons_iff, hlt]
      · intro c hc d hd
        obtain ⟨second, -, rfl⟩ := List.mem_map.1 hc
        obtain ⟨a, b, rfl, hsub, -⟩ := (mem_orderedPairs _).1 hd
        have hlt := hfirst a (hsub.subset (List.mem_cons_self ..))
        simp [List.cons_lt_cons_iff, hlt]

/-- In a list without repetition every element stands at the position found for
it. -/
theorem pairwise_idxOf {ids : List LoopId} (h : ids.Nodup) :
    ids.Pairwise fun a b => ids.idxOf a < ids.idxOf b := by
  rw [List.pairwise_iff_getElem]
  intro i j hi hj hij
  rwa [h.idxOf_getElem, h.idxOf_getElem]

/-! ## Kin -/

/-- A loop is a child of another. -/
def ParentOf (t : Forest) (p c : LoopId) : Prop :=
  ∃ n : Node, t.nodes[p]? = some n ∧ c ∈ n.children

/-- Child of child of child, at least one step down. -/
def Encloses (t : Forest) : LoopId → LoopId → Prop := Relation.TransGen t.ParentOf

/-- Two loops are different children of one loop, or one encloses the other. -/
def Kin (t : Forest) (a b : LoopId) : Prop :=
  (a ≠ b ∧ ∃ p, t.ParentOf p a ∧ t.ParentOf p b) ∨ t.Encloses a b ∨ t.Encloses b a

theorem Kin.symm {a b : LoopId} (h : t.Kin a b) : t.Kin b a := by
  obtain ⟨hne, p, ha, hb⟩ | hab | hba := h
  · exact Or.inl ⟨hne.symm, p, hb, ha⟩
  · exact Or.inr (Or.inr hab)
  · exact Or.inr (Or.inl hba)

/-- Whether the search pairs a loop with one that it meets later. -/
def related (t : Forest) (first second : LoopId) : Bool :=
  t.areSiblings first second = .ok true ∨ t.isAncestor first second = .ok true

namespace Linked

/-- What is above a loop is what encloses it. -/
theorem above_iff_encloses (h : t.Linked) {a id : LoopId} : t.Above a id ↔ t.Encloses a id := by
  constructor
  · intro habove
    obtain ⟨-, n, hn⟩ := habove.exists_nodes
    refine h.fromRoots (motive := fun id => t.Above a id → t.Encloses a id) ?_ ?_ hn habove
    · intro id n hn hp habove
      exact absurd habove (h.not_above_root ((h.mem_roots_iff hn).2 hp))
    · intro id n p m hn hp hm ih habove
      have hchild := (h.mem_children_iff hn hm).2 hp
      rcases (h.above_child_iff hm hchild).1 habove with rfl | habove
      · exact .single ⟨m, hm, hchild⟩
      · exact .tail (ih habove) ⟨m, hm, hchild⟩
  · intro hencloses
    induction hencloses with
    | single hchild =>
      obtain ⟨n, hn, hc⟩ := hchild
      exact (h.above_child_iff hn hc).2 (Or.inl rfl)
    | tail _ hchild ih =>
      obtain ⟨n, hn, hc⟩ := hchild
      exact (h.above_child_iff hn hc).2 (Or.inr ih)

theorem areSiblings_eq_true_iff (h : t.Linked) {a b : LoopId} {n m : Node}
    (hn : t.nodes[a]? = some n) (hm : t.nodes[b]? = some m) :
    t.areSiblings a b = .ok true ↔ a ≠ b ∧ ∃ p, t.ParentOf p a ∧ t.ParentOf p b := by
  have hanswer : t.areSiblings a b
      = .ok (a ≠ b && n.parent.isSome && n.parent == m.parent) := by
    simp only [areSiblings, node_eq hn, node_eq hm, ok_bind]
    rfl
  have hparent : ∀ {x p : LoopId} {k : Node}, t.nodes[x]? = some k →
      (t.ParentOf p x ↔ k.parent = some p) := by
    intro x p k hk
    constructor
    · rintro ⟨q, hq, hx⟩
      exact (h.mem_children_iff hk hq).1 hx
    · intro hp
      obtain ⟨q, hq, hx, -⟩ := h.above hk hp
      exact ⟨q, hq, hx⟩
  simp only [hanswer, Except.ok.injEq, Bool.and_eq_true, decide_eq_true_eq, beq_iff_eq,
    Option.isSome_iff_exists, hparent hn, hparent hm, and_assoc]
  refine and_congr_right fun _ => ⟨?_, ?_⟩
  · rintro ⟨⟨p, hp⟩, hsame⟩
    exact ⟨p, hp, hsame ▸ hp⟩
  · rintro ⟨p, hp, hq⟩
    exact ⟨⟨p, hp⟩, hp.trans hq.symm⟩

/-- A walk meets no loop before one above it. -/
theorem pairwise_not_above_inside (h : t.Linked) {id : LoopId} {n : Node}
    (hn : t.nodes[id]? = some n) : (t.inside id).Pairwise fun x y => ¬ t.Above y x := by
  refine h.fromLeaves
    (motive := fun id => (t.inside id).Pairwise fun x y => ¬ t.Above y x) ?_ hn
  intro id n hn ih
  rw [h.inside_eq hn, List.pairwise_cons, List.pairwise_flatMap]
  refine ⟨fun y hy => h.not_above_of_mem_inside hn ?_, ih,
    (h.children_nodup hn).imp_of_mem fun {c d} hc hd hne x hx y hy habove => hne ?_⟩
  · rw [h.inside_eq hn]
    exact List.mem_cons_of_mem _ hy
  · -- what is inside `y` is inside `d`, and two siblings have nothing in common
    obtain ⟨k, hk, -, hkl⟩ := h.child hn hc
    obtain ⟨m, hm, -, hml⟩ := h.child hn hd
    obtain ⟨⟨ny, hy'⟩, nx, hx'⟩ := habove.exists_nodes
    have hxy := ((h.above_iff hy' hx').1 habove).2
    exact h.eq_of_mem_inside hk hm (hkl.trans hml.symm) hx' hx
      (h.mem_inside_trans hm hy' hx' hy hxy)

/-- Of two loops in the order of a walk the search sees whether they are kin. -/
theorem related_iff_kin (h : t.Linked) {id a b : LoopId} {n : Node}
    (hn : t.nodes[id]? = some n) (hsub : [a, b].Sublist (t.inside id)) :
    t.related a b = true ↔ t.Kin a b := by
  obtain ⟨k, hk⟩ := h.exists_node_of_mem_inside hn (hsub.subset (by simp : a ∈ [a, b]))
  obtain ⟨m, hm⟩ := h.exists_node_of_mem_inside hn (hsub.subset (by simp : b ∈ [a, b]))
  have hnot : ¬ t.Above b a := List.pairwise_pair.1 ((h.pairwise_not_above_inside hn).sublist hsub)
  rw [related, decide_eq_true_iff, h.areSiblings_eq_true_iff hk hm, Kin, ← h.above_iff_encloses,
    ← h.above_iff_encloses]
  simp only [hnot, or_false]
  rfl

/-! ## Pairs to interchange -/

theorem partnersOf_eq (h : t.Linked) {first : LoopId} (hfirst : ∃ n, t.nodes[first]? = some n) :
    ∀ ids : List LoopId, (∀ id ∈ ids, ∃ n, t.nodes[id]? = some n) →
      t.partnersOf first ids
        = .ok ((ids.filter (t.related first)).map fun second => [first, second])
  | [], _ => rfl
  | second :: rest, hids => by
      obtain ⟨n, hn⟩ := hfirst
      obtain ⟨m, hm⟩ := hids second (List.mem_cons_self ..)
      obtain ⟨siblings, hsiblings⟩ : ∃ siblings, t.areSiblings first second = .ok siblings := by
        simp only [areSiblings, node_eq hn, node_eq hm, ok_bind]
        exact ⟨_, rfl⟩
      have hancestor := h.isAncestor_eq hn hm
      have hrest := partnersOf_eq h ⟨n, hn⟩ rest fun id hid =>
        hids id (List.mem_cons_of_mem _ hid)
      rw [partnersOf, hrest, List.filter_cons, related, hsiblings, hancestor]
      generalize decide (second ≠ first ∧ second ∈ t.inside first) = inside
      cases siblings <;> cases inside <;> rfl

theorem interchangePairs_eq (h : t.Linked) : ∀ ids : List LoopId,
    (∀ id ∈ ids, ∃ n, t.nodes[id]? = some n) →
      t.interchangePairs ids = .ok (orderedPairs t.related ids)
  | [], _ => rfl
  | first :: rest, hids => by
      have hrest := fun id hid => hids id (List.mem_cons_of_mem _ hid)
      rw [interchangePairs, h.partnersOf_eq (hids first (List.mem_cons_self ..)) rest hrest,
        interchangePairs_eq h rest hrest]
      rfl

end Linked

/-- The pairs of the loops inside a loop are its pairs of kin, in the order of
the walk. -/
theorem Linked.pair_mem_orderedPairs_iff (h : t.Linked) {id : LoopId} {n : Node}
    (hn : t.nodes[id]? = some n) (a b : LoopId) :
    [a, b] ∈ orderedPairs t.related (t.inside id) ↔
      [a, b].Sublist (t.inside id) ∧ t.Kin a b := by
  rw [mem_orderedPairs]
  constructor
  · rintro ⟨x, y, hpair, hsub, hrelated⟩
    cases hpair
    exact ⟨hsub, (h.related_iff_kin hn hsub).1 hrelated⟩
  · rintro ⟨hsub, hkin⟩
    exact ⟨a, b, rfl, hsub, (h.related_iff_kin hn hsub).2 hkin⟩

/-- The candidates for an interchange are the pairs of kin.

Every root has its candidates: of two loops inside it that are siblings, or
of which one encloses the other, just one arrangement is listed, once, and
it is the one in which the walk meets them; other pairs are not listed.  The
pairs come in the lexicographic order of their places in the walk. -/
theorem Reachable.interchange_candidates (h : t.Reachable) :
    ∃ found, Kind.interchange.candidates t = .ok found ∧ found.keys = t.roots ∧
      ∀ root ∈ t.roots, ∃ pairs order, found.get? root = some pairs ∧
        t.preorder root = .ok order ∧
        (∀ pair ∈ pairs, ∃ a b, pair = [a, b]) ∧
        (∀ a b, [a, b] ∈ pairs ↔ [a, b].Sublist order ∧ t.Kin a b) ∧
        (∀ a ∈ order, ∀ b ∈ order, a ≠ b → t.Kin a b →
          ([a, b] ∈ pairs ↔ [b, a] ∉ pairs)) ∧
        pairs.Nodup ∧
        pairs.Pairwise (fun c d => c.map order.idxOf < d.map order.idxOf) ∧
        (∀ a b, [a, b] ∈ pairs → ¬ t.Encloses b a) ∧
        ∀ a b, [a, b] ∈ pairs → t.rootOf a = .ok root ∧ t.rootOf b = .ok root := by
  have hlinked := h.sound.toLinked
  have hpairs : ∀ root ∈ t.roots, (do t.interchangePairs (← t.preorder root))
      = .ok (orderedPairs t.related (t.inside root)) := by
    intro root hr
    obtain ⟨n, hn, -⟩ := hlinked.exists_node_of_mem_roots hr
    rw [hlinked.preorder_eq hn]
    exact hlinked.interchangePairs_eq _ fun id hid => hlinked.exists_node_of_mem_inside hn hid
  obtain ⟨found, hfound, hget, -⟩ := perRoot_eq
    (fun root => do t.interchangePairs (← t.preorder root)) t.roots .empty
    fun root hr => ⟨_, hpairs root hr⟩
  refine ⟨found, hfound, keys_perRoot _ t.roots .empty found hlinked.roots_nodup hfound,
    fun root hr => ?_⟩
  obtain ⟨n, hn, -⟩ := hlinked.exists_node_of_mem_roots hr
  obtain ⟨pairs, hvalue, hat⟩ := hget root hr
  rw [hpairs root hr] at hvalue
  cases hvalue
  have hplaces := pairwise_idxOf (hlinked.nodup_inside hn)
  have hmem := hlinked.pair_mem_orderedPairs_iff hn
  have hlex := pairwise_orderedPairs t.related hplaces
  refine ⟨_, t.inside root, hat, hlinked.preorder_eq hn, ?_, hmem, ?_, ?_, hlex, ?_, ?_⟩
  · intro pair hpair
    obtain ⟨a, b, hpair, -⟩ := (mem_orderedPairs _).1 hpair
    exact ⟨a, b, hpair⟩
  · intro a ha b hb hne hkin
    rw [hmem, hmem]
    constructor
    · rintro ⟨hab, -⟩ ⟨hba, -⟩
      have hlt := List.pairwise_pair.1 (hplaces.sublist hab)
      have hgt := List.pairwise_pair.1 (hplaces.sublist hba)
      omega
    · intro hnot
      have hab := (pair_sublist_or ha hb hne).resolve_right fun hba => hnot ⟨hba, hkin.symm⟩
      exact ⟨hab, hkin⟩
  · refine hlex.imp ?_
    rintro c d hlt rfl
    exact List.lt_irrefl _ hlt
  · intro a b hab hencloses
    obtain ⟨hsub, -⟩ := (hmem a b).1 hab
    exact List.pairwise_pair.1 ((hlinked.pairwise_not_above_inside hn).sublist hsub)
      (hlinked.above_iff_encloses.2 hencloses)
  · intro a b hab
    obtain ⟨hsub, -⟩ := (hmem a b).1 hab
    exact ⟨hlinked.rootOf_eq hr (hsub.subset (by simp)),
      hlinked.rootOf_eq hr (hsub.subset (by simp))⟩

/-- In `branching`, its loops `i` and `k` exchanged, the siblings `j` and `i` are
paired in this order only, and the root is paired with a loop two levels
down. -/
theorem branching_interchange_pairs :
    ∃ t u, ofTable .branching = .ok t ∧ t.interchange ⟨"i"⟩ ⟨"k"⟩ = .ok u ∧
      ∃ found pairs, Kind.interchange.candidates u = .ok found ∧
        found.get? ⟨"k"⟩ = some pairs ∧ [⟨"j"⟩, ⟨"i"⟩] ∈ pairs ∧ [⟨"i"⟩, ⟨"j"⟩] ∉ pairs ∧
        [⟨"k"⟩, ⟨"l"⟩] ∈ pairs := by
  obtain ⟨t, ht⟩ : ∃ t, ofTable .branching = .ok t := ⟨_, rfl⟩
  obtain ⟨u, hu⟩ : ∃ u, t.interchange ⟨"i"⟩ ⟨"k"⟩ = .ok u := by
    cases ht
    exact ⟨_, rfl⟩
  obtain ⟨hroots, hpreorder, hkj, hki, hil⟩ : ⟨"k"⟩ ∈ u.roots ∧
      u.preorder ⟨"k"⟩ = .ok [⟨"k"⟩, ⟨"j"⟩, ⟨"i"⟩, ⟨"l"⟩] ∧
      u.ParentOf ⟨"k"⟩ ⟨"j"⟩ ∧ u.ParentOf ⟨"k"⟩ ⟨"i"⟩ ∧ u.ParentOf ⟨"i"⟩ ⟨"l"⟩ := by
    cases ht
    cases hu
    exact ⟨by decide +kernel, rfl, ⟨_, rfl, by decide +kernel⟩, ⟨_, rfl, by decide +kernel⟩,
      ⟨_, rfl, by decide +kernel⟩⟩
  obtain ⟨found, hfound, -, hroot⟩ :=
    Reachable.interchange_candidates (.interchanged (.built ht) hu)
  obtain ⟨pairs, order, hpairs, horder, -, hmem, hone, -⟩ := hroot _ hroots
  rw [hpreorder] at horder
  cases horder
  have hsiblings : u.Kin ⟨"j"⟩ ⟨"i"⟩ := Or.inl ⟨by decide, ⟨"k"⟩, hkj, hki⟩
  have hji := (hmem ⟨"j"⟩ ⟨"i"⟩).2 ⟨by decide, hsiblings⟩
  exact ⟨t, u, ht, hu, found, pairs, hfound, hpairs, hji,
    (hone _ (by simp) _ (by simp) (by decide) hsiblings).1 hji,
    (hmem _ _).2 ⟨by decide, Or.inr (Or.inl (.tail (.single hki) hil))⟩⟩

end Forest

end LoopNest
