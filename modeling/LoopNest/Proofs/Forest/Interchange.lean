import LoopNest.Forest.Interchange
import LoopNest.Proofs.Forest.Relabelling

/-!
LoopNest.Proofs.Forest.Interchange — an interchange is a relabelling.

The interchange works on the nodes around two loops: it rewrites the lists
in which they stand, points the children at their new parents, gives the
two each other's place and the computations their new owners.  Whether the
two are neighbours, siblings, roots or strangers, what it leaves is the
forest with the two ids exchanged everywhere (`Sound.exchange_eq`).

* `Sound.interchange_eq` — it relabels if both loops are there, and is
  refused otherwise;
* `Forest.interchangeAll` — interchanges one after the other, failed ones
  changing nothing;
* `Sound.interchangeAll_eq` — a run of them relabels by the product of their
  transpositions (`Forest.permutationOf`).
-/

namespace LoopNest

/-- The exchange of two ids, as a permutation. -/
theorem LoopId.swap_eq (a b : LoopId) : LoopId.swap a b = Equiv.swap a b := by
  funext id
  rw [LoopId.swap, Equiv.swap_apply_def]

namespace Forest

variable {t : Forest} {a b : LoopId} {first second : Node}

/-! ## What each part of the interchange does -/

/-- The nodes at some places get their child lists renamed, no other node
changes. -/
theorem relist_eq_ok (f : LoopId → LoopId) : ∀ (places : List (Option LoopId))
    (nodes : LoopMap Node), places.Nodup →
    (∀ p, some p ∈ places → ∃ n, nodes[p]? = some n) →
    ∃ out, relist f nodes places = .ok out ∧ ∀ id : LoopId, out[id]? = nodes[id]?.map fun n =>
      if some id ∈ places then { n with children := n.children.map f } else n
  | [], nodes, _, _ => ⟨nodes, rfl, by simp⟩
  | none :: rest, nodes, hnd, hin => by
      rw [List.nodup_cons] at hnd
      obtain ⟨out, hout, hget⟩ := relist_eq_ok f rest nodes hnd.2
        fun p hp => hin p (List.mem_cons_of_mem _ hp)
      exact ⟨out, hout, fun id => by simpa using hget id⟩
  | some p :: rest, nodes, hnd, hin => by
      rw [List.nodup_cons] at hnd
      obtain ⟨n, hn⟩ := hin p (List.mem_cons_self ..)
      have hrest : ∀ q, some q ∈ rest →
          ∃ m, (nodes.insert p { n with children := n.children.map f })[q]? = some m := by
        intro q hq
        obtain ⟨m, hm⟩ := hin q (List.mem_cons_of_mem _ hq)
        have hqp : p ≠ q := fun e => hnd.1 (e ▸ hq)
        exact ⟨m, by simpa [Std.ExtTreeMap.getElem?_insert, hqp] using hm⟩
      obtain ⟨out, hout, hget⟩ := relist_eq_ok f rest _ hnd.2 hrest
      refine ⟨out, by simp only [relist, hn, hout], fun id => ?_⟩
      rw [hget id, Std.ExtTreeMap.getElem?_insert]
      by_cases hid : p = id
      · subst hid
        simp [hn, hnd.1]
      · have hid' : ¬ id = p := fun e => hid e.symm
        simp [hid, hid']

/-- Some nodes get a new parent, no other node changes. -/
theorem rehang_eq_ok (parent : LoopId) : ∀ (ids : List LoopId) (nodes : LoopMap Node),
    (∀ id ∈ ids, ∃ n, nodes[id]? = some n) →
    ∃ out, rehang parent nodes ids = .ok out ∧ ∀ id : LoopId, out[id]? = nodes[id]?.map fun n =>
      if id ∈ ids then { n with parent := some parent } else n
  | [], nodes, _ => ⟨nodes, rfl, by simp⟩
  | child :: rest, nodes, hin => by
      obtain ⟨n, hn⟩ := hin child (List.mem_cons_self ..)
      have hrest : ∀ id ∈ rest,
          ∃ m, (nodes.insert child { n with parent := some parent })[id]? = some m := by
        intro id hid
        obtain ⟨m, hm⟩ := hin id (List.mem_cons_of_mem _ hid)
        rw [Std.ExtTreeMap.getElem?_insert]
        split
        · exact ⟨_, rfl⟩
        · exact ⟨m, hm⟩
      obtain ⟨out, hout, hget⟩ := rehang_eq_ok parent rest _ hrest
      refine ⟨out, by simp only [rehang, hn, hout], fun id => ?_⟩
      rw [hget id, Std.ExtTreeMap.getElem?_insert]
      by_cases hid : child = id
      · subst hid
        simp [hn]
      · have hid' : ¬ id = child := fun e => hid e.symm
        simp [hid, hid']

theorem getElem?_reown (owner : LoopId) (c : String) : ∀ (computations : List String)
    (owners : NameMap LoopId),
    (reown owner owners computations)[c]? = if c ∈ computations then some owner else owners[c]?
  | [], owners => by simp [reown]
  | d :: rest, owners => by
      have hstep : reown owner owners (d :: rest) = reown owner (owners.insert d owner) rest := rfl
      rw [hstep, getElem?_reown owner c rest, Std.ExtTreeMap.getElem?_insert]
      by_cases hc : d = c
      · simp [hc]
      · have hc' : ¬ c = d := fun e => hc e.symm
        simp [hc, hc']

theorem mem_listedFrom {place : Option LoopId} :
    place ∈ listedFrom a b first second ↔
      place = first.parent ∧ place ≠ some b ∨ place = second.parent ∧ place ≠ some a := by
  unfold listedFrom
  by_cases hf : first.parent = some b <;> by_cases hs : second.parent = some a <;>
    by_cases hfs : second.parent = first.parent <;> simp_all <;> grind

theorem nodup_listedFrom (a b : LoopId) (first second : Node) :
    (listedFrom a b first second).Nodup := by
  unfold listedFrom
  by_cases hf : first.parent = some b <;> by_cases hs : second.parent = some a <;>
    by_cases hfs : second.parent = first.parent <;> simp_all [eq_comm]

/-- The new node of a loop: its own head at the other's place. -/
theorem moved_eq {own other : Node} (hself : other.parent ≠ some b) :
    moved a b own other = own.atPlace (Equiv.swap a b) other := by
  have hparent : (if other.parent = some a then some b else other.parent)
      = other.parent.map (Equiv.swap a b) := by
    cases hp : other.parent with
    | none => simp
    | some p =>
      have hpb : p ≠ b := fun e => hself (hp.trans (congrArg some e))
      by_cases hpa : p = a
      · simp [hpa]
      · simp [hpa, Equiv.swap_apply_of_ne_of_ne hpa hpb]
  rw [moved, Node.atPlace, hparent, LoopId.swap_eq]

theorem mem_otherChildren {n : Node} {id : LoopId} :
    id ∈ otherChildren a b n ↔ id ∈ n.children ∧ id ≠ a ∧ id ≠ b := by
  simp [otherChildren]

/-- Renaming by an exchange leaves a list as it is that names neither. -/
theorem map_swap_eq_self {ids : List LoopId} (ha : a ∉ ids) (hb : b ∉ ids) :
    ids.map (Equiv.swap a b) = ids := by
  refine (List.map_congr_left fun id hid => ?_).trans (List.map_id ids)
  exact Equiv.swap_apply_of_ne_of_ne (fun e => ha (e ▸ hid)) (fun e => hb (e ▸ hid))

/-! ## The interchange as a whole -/

section Exchange

variable (hfirst : t.nodes[a]? = some first) (hsecond : t.nodes[b]? = some second)

include hfirst hsecond

/-- The places from which neither loop is listed name neither of them. -/
theorem Linked.map_children_of_not_mem (h : t.Linked) {id : LoopId} {n : Node}
    (hn : t.nodes[id]? = some n) (ha : id ≠ a) (hb : id ≠ b)
    (hid : some id ∉ listedFrom a b first second) :
    n.children.map (Equiv.swap a b) = n.children := by
  have hb' : some id ≠ some b := fun e => hb (Option.some.inj e)
  have ha' : some id ≠ some a := fun e => ha (Option.some.inj e)
  simp only [mem_listedFrom, hb', ha', ne_eq, not_false_eq_true, and_true, not_or] at hid
  refine map_swap_eq_self ?_ ?_
  · rw [h.mem_children_iff hfirst hn]
    exact fun e => hid.1 e.symm
  · rw [h.mem_children_iff hsecond hn]
    exact fun e => hid.2 e.symm

/-- The roots, too, are renamed even where the code leaves them alone. -/
theorem Linked.map_roots_of_not_mem (h : t.Linked)
    (hnone : none ∉ listedFrom a b first second) : t.roots.map (Equiv.swap a b) = t.roots := by
  simp only [mem_listedFrom, ne_eq, reduceCtorEq, not_false_eq_true, and_true, not_or] at hnone
  refine map_swap_eq_self ?_ ?_
  · rw [h.mem_roots_iff hfirst]
    exact fun e => hnone.1 e.symm
  · rw [h.mem_roots_iff hsecond]
    exact fun e => hnone.2 e.symm

/-- A third loop moves under the other one exactly if it was a child of one
of the two. -/
theorem Linked.mem_otherChildren_iff (h : t.Linked) {id : LoopId} {n : Node}
    (hn : t.nodes[id]? = some n) (ha : id ≠ a) (hb : id ≠ b) :
    (id ∈ otherChildren a b (first.atPlace (Equiv.swap a b) second) ↔ n.parent = some b) ∧
      (id ∈ otherChildren a b (second.atPlace (Equiv.swap a b) first) ↔ n.parent = some a) := by
  have hmap : ∀ ids : List LoopId, id ∈ ids.map (Equiv.swap a b) ↔ id ∈ ids := by
    intro ids
    have hfix := Equiv.swap_apply_of_ne_of_ne ha hb
    rw [← hfix, List.mem_map_of_injective (Equiv.swap a b).injective, hfix]
  rw [mem_otherChildren, mem_otherChildren, ← h.mem_children_iff hn hsecond,
    ← h.mem_children_iff hn hfirst]
  simp only [ne_eq, ha, hb, not_false_eq_true, and_true]
  exact ⟨hmap second.children, hmap first.children⟩

/-- The node of a third loop after all rewriting. -/
theorem Linked.bystander_eq (h : t.Linked) {id : LoopId} {n relisted hungA hungB : Node}
    (hn : t.nodes[id]? = some n) (ha : id ≠ a) (hb : id ≠ b)
    (hrelisted : relisted = if some id ∈ listedFrom a b first second then
      { n with children := n.children.map (Equiv.swap a b) } else n)
    (hhungA : hungA = if id ∈ otherChildren a b (first.atPlace (Equiv.swap a b) second) then
      { relisted with parent := some a } else relisted)
    (hhungB : hungB = if id ∈ otherChildren a b (second.atPlace (Equiv.swap a b) first) then
      { hungA with parent := some b } else hungA) :
    hungB = n.atPlace (Equiv.swap a b) n := by
  have hlist : relisted = { n with children := n.children.map (Equiv.swap a b) } := by
    rw [hrelisted]
    split
    · rfl
    · next hid => rw [h.map_children_of_not_mem hfirst hsecond hn ha hb hid]
  obtain ⟨hkidsA, hkidsB⟩ := h.mem_otherChildren_iff hfirst hsecond hn ha hb
  simp only [hkidsA] at hhungA
  simp only [hkidsB] at hhungB
  rw [hhungB, hhungA, hlist, Node.atPlace, Node.relocated]
  cases hp : n.parent with
  | none => simp
  | some p =>
    by_cases hpa : p = a
    · subst hpa
      by_cases hpb : p = b
      · simp [hpb]
      · simp [hpb]
    · by_cases hpb : p = b
      · subst hpb
        simp [hpa]
      · simp [hpa, hpb, Equiv.swap_apply_of_ne_of_ne]

theorem Sound.owners_relabel_swap (h : t.Sound) :
    reown b (reown a t.owners second.computations) first.computations
      = (t.relabel (Equiv.swap a b)).owners := by
  refine Std.ExtTreeMap.ext_getElem? fun c => ?_
  show _ = (t.owners.map fun _ owner => Equiv.swap a b owner)[c]?
  rw [getElem?_reown, getElem?_reown, Std.ExtTreeMap.getElem?_map]
  by_cases hcf : c ∈ first.computations
  · rw [if_pos hcf, h.owner_iff.2 ⟨first, hfirst, hcf⟩, Option.map_some, Equiv.swap_apply_left]
  · by_cases hcs : c ∈ second.computations
    · rw [if_neg hcf, if_pos hcs, h.owner_iff.2 ⟨second, hsecond, hcs⟩, Option.map_some,
        Equiv.swap_apply_right]
    · rw [if_neg hcf, if_neg hcs]
      cases hc : t.owners[c]? with
      | none => rfl
      | some owner =>
        obtain ⟨n, hn, hcn⟩ := h.owner_iff.1 hc
        have ha : owner ≠ a := by
          rintro rfl
          rw [hfirst] at hn
          cases hn
          exact hcf hcn
        have hb : owner ≠ b := by
          rintro rfl
          rw [hsecond] at hn
          cases hn
          exact hcs hcn
        rw [Option.map_some, Equiv.swap_apply_of_ne_of_ne ha hb]

/-- Every place from which one of the two is listed is there. -/
theorem Linked.exists_node_of_mem_listedFrom (h : t.Linked) {p : LoopId}
    (hp : some p ∈ listedFrom a b first second) : ∃ n, t.nodes[p]? = some n := by
  rcases mem_listedFrom.1 hp with ⟨hp, -⟩ | ⟨hp, -⟩
  · obtain ⟨m, hm, -⟩ := h.above hfirst hp.symm
    exact ⟨m, hm⟩
  · obtain ⟨m, hm, -⟩ := h.above hsecond hp.symm
    exact ⟨m, hm⟩

theorem permutes_swap : Permutes (Equiv.swap a b) t :=
  .swap (contains_eq_true_iff.2 ⟨first, hfirst⟩) (contains_eq_true_iff.2 ⟨second, hsecond⟩)

/-- Every loop that is given a new parent is there. -/
theorem Linked.exists_node_of_mem_otherChildren (h : t.Linked) {own place : Node}
    {p id : LoopId} (hplace : t.nodes[p]? = some place)
    (hid : id ∈ otherChildren a b (own.atPlace (Equiv.swap a b) place)) :
    ∃ n, t.nodes[id]? = some n := by
  obtain ⟨c, hc, rfl⟩ := List.mem_map.1 (mem_otherChildren.1 hid).1
  obtain ⟨m, hm, -⟩ := h.below hplace hc
  exact (permutes_swap hfirst hsecond).exists_node hm

/-- After all rewriting, with the nodes of the two put in last, the nodes are
those of the relabelled forest. -/
theorem Linked.nodes_relabel_swap (h : t.Linked) {relisted hungA hungB : LoopMap Node}
    (hrelisted : ∀ id : LoopId, relisted[id]? = t.nodes[id]?.map fun n =>
      if some id ∈ listedFrom a b first second then
        { n with children := n.children.map (Equiv.swap a b) } else n)
    (hhungA : ∀ id : LoopId, hungA[id]? = relisted[id]?.map fun n =>
      if id ∈ otherChildren a b (first.atPlace (Equiv.swap a b) second) then
        { n with parent := some a } else n)
    (hhungB : ∀ id : LoopId, hungB[id]? = hungA[id]?.map fun n =>
      if id ∈ otherChildren a b (second.atPlace (Equiv.swap a b) first) then
        { n with parent := some b } else n) :
    (hungB.insert a (first.atPlace (Equiv.swap a b) second)).insert b
      (second.atPlace (Equiv.swap a b) first) = (t.relabel (Equiv.swap a b)).nodes := by
  have hswap : Permutes (Equiv.swap a b) t := permutes_swap hfirst hsecond
  refine Std.ExtTreeMap.ext_getElem? fun id => ?_
  rw [Std.ExtTreeMap.getElem?_insert, Std.ExtTreeMap.getElem?_insert]
  by_cases hb : b = id
  · subst hb
    have hplace : t.nodes[(Equiv.swap a b).symm b]? = some first := by simpa using hfirst
    rw [(nodes_relabel hswap).2 ⟨second, first, hsecond, hplace, rfl⟩]
    simp
  · by_cases ha : a = id
    · subst ha
      have hplace : t.nodes[(Equiv.swap a b).symm a]? = some second := by simpa using hsecond
      rw [(nodes_relabel hswap).2 ⟨first, second, hfirst, hplace, rfl⟩]
      simp [hb]
    · have ha' : id ≠ a := fun e => ha e.symm
      have hb' : id ≠ b := fun e => hb e.symm
      simp only [Std.LawfulEqOrd.compare_eq_iff_eq, hb, ha, if_false]
      rw [hhungB, hhungA, hrelisted]
      cases hn : t.nodes[id]? with
      | none =>
        have hnew : (t.relabel (Equiv.swap a b)).nodes[id]? = none := by
          refine Option.eq_none_iff_forall_ne_some.2 fun m hm => ?_
          obtain ⟨own, -, hown, -⟩ := (nodes_relabel hswap).1 hm
          rw [hn] at hown
          cases hown
        rw [hnew]
        rfl
      | some n =>
        have hplace : t.nodes[(Equiv.swap a b).symm id]? = some n := by
          rw [Equiv.symm_swap, Equiv.swap_apply_of_ne_of_ne ha' hb', hn]
        rw [(nodes_relabel hswap).2 ⟨n, n, hn, hplace, rfl⟩]
        exact congrArg some (h.bystander_eq hfirst hsecond hn ha' hb' rfl rfl rfl)

/-- The interchange of two different loops exchanges their ids everywhere,
and never fails. -/
theorem Sound.exchange_eq (h : t.Sound) :
    t.exchange a b first second = .ok (t.relabel (Equiv.swap a b)) := by
  have hlinked := h.toLinked
  have hnewA : moved a b first second = first.atPlace (Equiv.swap a b) second :=
    moved_eq (hlinked.parent_ne_self hsecond)
  have hnewB : moved b a second first = second.atPlace (Equiv.swap a b) first := by
    rw [moved_eq (hlinked.parent_ne_self hfirst), Equiv.swap_comm]
  -- none of the three passes over the nodes meets a loop that is not there
  obtain ⟨relisted, hrelist, hgetR⟩ :=
    relist_eq_ok (Equiv.swap a b) _ t.nodes (nodup_listedFrom a b first second)
      fun p hp => hlinked.exists_node_of_mem_listedFrom hfirst hsecond hp
  obtain ⟨hungA, hrehangA, hgetA⟩ :=
    rehang_eq_ok a (otherChildren a b (first.atPlace (Equiv.swap a b) second)) relisted (by
      intro id hid
      obtain ⟨n, hn⟩ := hlinked.exists_node_of_mem_otherChildren hfirst hsecond hsecond hid
      exact ⟨_, by rw [hgetR, hn]; rfl⟩)
  obtain ⟨hungB, hrehangB, hgetB⟩ :=
    rehang_eq_ok b (otherChildren a b (second.atPlace (Equiv.swap a b) first)) hungA (by
      intro id hid
      obtain ⟨n, hn⟩ := hlinked.exists_node_of_mem_otherChildren hfirst hsecond hfirst hid
      exact ⟨_, by rw [hgetA, hgetR, hn]; rfl⟩)
  have hnodes := hlinked.nodes_relabel_swap hfirst hsecond hgetR hgetA hgetB
  have hroots : (if none ∈ listedFrom a b first second then t.roots.map (Equiv.swap a b)
      else t.roots) = t.roots.map (Equiv.swap a b) := by
    split
    · rfl
    · next hnone => exact (hlinked.map_roots_of_not_mem hfirst hsecond hnone).symm
  have howners := h.owners_relabel_swap hfirst hsecond
  rw [exchange, hnewA, hnewB, LoopId.swap_eq]
  simp only [hrelist, ok_bind, hrehangA, hrehangB, hnodes, hroots]
  show Except.ok _ = Except.ok _
  rw [show (first.atPlace (Equiv.swap a b) second).computations = second.computations from rfl,
    show (second.atPlace (Equiv.swap a b) first).computations = first.computations from rfl,
    howners]
  rfl

end Exchange

/-- Whether an interchange succeeds, and what it leaves. -/
theorem Sound.interchange_eq (h : t.Sound) (a b : LoopId) :
    t.interchange a b =
      if t.contains a = true then
        if t.contains b = true then .ok (t.relabel (Equiv.swap a b))
        else .error (.disconnected a b b)
      else .error (.disconnected a b a) := by
  rw [interchange, partner, partner]
  cases ha : t.nodes[a]? with
  | none => simp [contains, Std.ExtTreeMap.contains_eq_isSome_getElem?, ha, bind, Except.bind]
  | some first =>
    have hina := contains_eq_true_iff.2 ⟨first, ha⟩
    rw [if_pos hina]
    cases hb : t.nodes[b]? with
    | none => simp [contains, Std.ExtTreeMap.contains_eq_isSome_getElem?, hb, bind, Except.bind]
    | some second =>
      rw [if_pos (contains_eq_true_iff.2 ⟨second, hb⟩)]
      simp only [ok_bind]
      split
      · next hab =>
        rw [hab, Equiv.swap_self, ← Equiv.Perm.one_def, relabel_one]
      · exact h.exchange_eq ha hb

/-! ## Runs -/

/-- The forest after a call; a call that fails changes nothing. -/
def afterInterchange (t : Forest) (call : LoopId × LoopId) : Forest :=
  match t.interchange call.1 call.2 with
  | .ok u => u
  | .error _ => t

/-- The forest after some calls, one after the other. -/
def interchangeAll (t : Forest) (calls : List (LoopId × LoopId)) : Forest :=
  calls.foldl afterInterchange t

/-- The transposition of a call that names two loops of the forest; other
calls stand for the identity. -/
def transpositionOf (t : Forest) (call : LoopId × LoopId) : Equiv.Perm LoopId :=
  if t.contains call.1 ∧ t.contains call.2 then Equiv.swap call.1 call.2 else 1

/-- The product of the transpositions of some calls, the first call acting
first. -/
def permutationOf (t : Forest) : List (LoopId × LoopId) → Equiv.Perm LoopId
  | [] => 1
  | call :: rest => t.permutationOf rest * t.transpositionOf call

theorem permutes_one (t : Forest) : Permutes 1 t := fun _ => rfl

theorem permutes_transpositionOf (t : Forest) (call : LoopId × LoopId) :
    Permutes (t.transpositionOf call) t := by
  unfold transpositionOf
  split
  · next h => exact .swap h.1 h.2
  · exact t.permutes_one

theorem permutes_permutationOf (t : Forest) :
    ∀ calls : List (LoopId × LoopId), Permutes (t.permutationOf calls) t
  | [] => t.permutes_one
  | call :: rest => (t.permutes_permutationOf rest).mul (t.permutes_transpositionOf call)

theorem Sound.afterInterchange_eq (h : t.Sound) (call : LoopId × LoopId) :
    t.afterInterchange call = t.relabel (t.transpositionOf call) := by
  rw [afterInterchange, h.interchange_eq, transpositionOf]
  by_cases ha : t.contains call.1 = true
  · by_cases hb : t.contains call.2 = true
    · rw [if_pos ha, if_pos hb, if_pos ⟨ha, hb⟩]
    · rw [if_pos ha, if_neg hb, if_neg fun hab => hb hab.2, relabel_one]
  · rw [if_neg ha, if_neg fun hab => ha hab.1, relabel_one]

/-- What calls amount to depends on the loops of the forest only, not on
where they are. -/
theorem permutationOf_relabel (π : Equiv.Perm LoopId) :
    ∀ calls : List (LoopId × LoopId), (t.relabel π).permutationOf calls = t.permutationOf calls
  | [] => rfl
  | call :: rest => by
      rw [permutationOf, permutationOf, permutationOf_relabel π rest, transpositionOf,
        contains_relabel, contains_relabel, transpositionOf]

/-- A run of calls relabels the forest by the product of its
transpositions. -/
theorem Sound.interchangeAll_eq (h : t.Sound) (calls : List (LoopId × LoopId)) :
    t.interchangeAll calls = t.relabel (t.permutationOf calls) := by
  induction calls generalizing t with
  | nil => exact t.relabel_one.symm
  | cons call rest ih =>
    have hstep : t.interchangeAll (call :: rest) = (t.afterInterchange call).interchangeAll rest :=
      rfl
    rw [hstep, h.afterInterchange_eq, ih (h.relabel (t.permutes_transpositionOf call)),
      permutationOf_relabel, permutationOf,
      relabel_mul (t.permutes_permutationOf rest) (t.permutes_transpositionOf call)]

theorem Sound.interchangeAll (h : t.Sound) (calls : List (LoopId × LoopId)) :
    (t.interchangeAll calls).Sound := by
  rw [h.interchangeAll_eq]
  exact h.relabel (t.permutes_permutationOf calls)

/-! ## The group of runs -/

theorem transpositionOf_swap (t : Forest) (a b : LoopId) :
    t.transpositionOf (b, a) = t.transpositionOf (a, b) := by
  rw [transpositionOf, transpositionOf, Equiv.swap_comm]
  simp only [and_comm]

theorem transpositionOf_inv (t : Forest) (call : LoopId × LoopId) :
    (t.transpositionOf call)⁻¹ = t.transpositionOf call := by
  unfold transpositionOf
  split
  · exact Equiv.swap_inv call.1 call.2
  · exact inv_one

theorem permutationOf_append (t : Forest) : ∀ calls more : List (LoopId × LoopId),
    t.permutationOf (calls ++ more) = t.permutationOf more * t.permutationOf calls
  | [], more => (mul_one _).symm
  | call :: rest, more => by
      rw [List.cons_append, permutationOf, permutationOf_append t rest, permutationOf, mul_assoc]

/-- Calls in reverse order undo each other. -/
theorem permutationOf_reverse (t : Forest) : ∀ calls : List (LoopId × LoopId),
    t.permutationOf calls.reverse = (t.permutationOf calls)⁻¹
  | [] => inv_one.symm
  | call :: rest => by
      rw [List.reverse_cons, permutationOf_append, permutationOf_reverse t rest]
      simp only [permutationOf, one_mul, mul_inv_rev, transpositionOf_inv]

end Forest

end LoopNest
