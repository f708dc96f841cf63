import LoopNest.Forest.Check
import LoopNest.Proofs.Forest.Walks

/-!
LoopNest.Proofs.Forest.Checking — what the check asks for.

The check compares a loop with its children only, one edge after the other,
and last it counts the loops that it has met.  For each of its loops below
there is one statement of what passes, over whatever has been seen before.

* `checkLoops_eq_ok_iff`, `checkRoots_eq_ok_iff`, `checkOwners_eq_ok_iff`;
* `Walked` — what a walk that has come to its end says of the links;
* `check_eq_ok_iff_linked` — the forests that pass are the linked ones whose
  owners hold what they are said to hold.
-/

namespace LoopNest

namespace Forest

variable {t : Forest}

/-! ## The loops of the check -/

/-- A loop that is there and whose children name it and lie one level deeper. -/
def Fits (t : Forest) (id : LoopId) : Prop :=
  ∃ n, t.nodes[id]? = some n ∧ ∀ c ∈ n.children, ∃ m,
    t.nodes[c]? = some m ∧ m.parent = some id ∧ m.level = n.level + 1

/-- A loop that is there, has no parent and carries level zero. -/
def Topmost (t : Forest) (id : LoopId) : Prop :=
  ∃ n, t.nodes[id]? = some n ∧ n.parent = none ∧ n.level = 0

theorem checkChildren_eq_ok_iff {id : LoopId} {n : Node} : ∀ children : List LoopId,
    t.checkChildren id n children = .ok () ↔ ∀ c ∈ children, ∃ m,
      t.nodes[c]? = some m ∧ m.parent = some id ∧ m.level = n.level + 1
  | [] => by simp [checkChildren]
  | child :: rest => by
      cases hm : t.nodes[child]? with
      | none => simp [checkChildren, node_eq_error hm, hm]
      | some m =>
        rw [checkChildren, node_eq hm, ok_bind]
        by_cases hp : m.parent = some id
        · by_cases hl : m.level = n.level + 1
          · rw [if_neg (by simp [hp]), if_neg (by simp [hl]), checkChildren_eq_ok_iff rest]
            simp [hm, hp, hl]
          · simp [hm, hp, hl]
        · simp [hm, hp]

/-- Loops pass if they fit and none has been seen before; they have been seen
then. -/
theorem checkLoops_eq_ok_iff : ∀ {ids seen result : List LoopId}, seen.Nodup →
    (t.checkLoops seen ids = .ok result ↔
      result = ids.reverse ++ seen ∧ result.Nodup ∧ ∀ id ∈ ids, t.Fits id)
  | [], seen, result, hseen => by
      rw [checkLoops, Except.ok.injEq]
      constructor
      · rintro rfl
        exact ⟨rfl, hseen, by simp⟩
      · rintro ⟨rfl, -⟩
        rfl
  | id :: rest, seen, result, hseen => by
      rw [checkLoops]
      by_cases hid : id ∈ seen
      · rw [if_pos hid]
        constructor
        · intro h
          cases h
        · rintro ⟨rfl, hnodup, -⟩
          have hboth := (List.nodup_append.1 hnodup).2.2 id (by simp) id hid
          exact absurd rfl hboth
      · have hnext : (id :: seen).Nodup := List.nodup_cons.2 ⟨hid, hseen⟩
        have hfits : t.Fits id ↔ ∃ n, t.node id = .ok n ∧
            t.checkChildren id n n.children = .ok () := by
          simp only [Fits, node_eq_ok_iff, checkChildren_eq_ok_iff]
        simp only [if_neg hid, bind_eq_ok, checkLoops_eq_ok_iff hnext, List.forall_mem_cons,
          List.reverse_cons, List.append_assoc, List.singleton_append, hfits]
        constructor
        · rintro ⟨n, hn, ⟨⟩, hchildren, hresult, hnodup, hrest⟩
          exact ⟨hresult, hnodup, ⟨n, hn, hchildren⟩, hrest⟩
        · rintro ⟨hresult, hnodup, ⟨n, hn, hchildren⟩, hrest⟩
          exact ⟨n, hn, (), hchildren, hresult, hnodup, hrest⟩

/-- Roots pass if they are topmost and the loops that are met on a walk over
them fit and are met once. -/
theorem checkRoots_eq_ok_iff : ∀ {roots seen result : List LoopId}, seen.Nodup →
    (t.checkRoots seen roots = .ok result ↔
      (∀ r ∈ roots, t.Topmost r) ∧ ∃ order, t.preorders roots = .ok order ∧
        result = order.reverse ++ seen ∧ result.Nodup ∧ ∀ id ∈ order, t.Fits id)
  | [], seen, result, hseen => by
      rw [checkRoots, Except.ok.injEq]
      constructor
      · rintro rfl
        exact ⟨by simp, [], rfl, rfl, hseen, by simp⟩
      · rintro ⟨-, order, horder, rfl, -⟩
        cases horder
        rfl
  | root :: rest, seen, result, hseen => by
      have htop : ∀ n : Node,
          (n.parent = none ∧ n.level = 0) ↔ ¬(n.parent ≠ none ∨ n.level ≠ 0) := by simp
      simp only [checkRoots, bind_eq_ok, node_eq_ok_iff, List.forall_mem_cons, preorders]
      constructor
      · rintro ⟨n, hn, h⟩
        by_cases hroot : n.parent ≠ none ∨ n.level ≠ 0
        · rw [if_pos hroot] at h
          cases h
        · rw [if_neg hroot] at h
          obtain ⟨order, horder, h⟩ := bind_eq_ok.1 h
          obtain ⟨now, hnow, h⟩ := bind_eq_ok.1 h
          obtain ⟨rfl, hnodup, hfits⟩ := (checkLoops_eq_ok_iff hseen).1 hnow
          obtain ⟨htops, others, hothers, rfl, hall, hfits'⟩ := (checkRoots_eq_ok_iff hnodup).1 h
          refine ⟨⟨⟨n, hn, (htop n).2 hroot⟩, htops⟩, order ++ others,
            ⟨order, horder, others, hothers, rfl⟩, ?_, hall, ?_⟩
          · simp
          · exact fun id hid => (List.mem_append.1 hid).elim (hfits id) (hfits' id)
      · rintro ⟨⟨⟨n, hn, hroot⟩, htops⟩, all, ⟨order, horder, others, hothers, hall⟩, rfl, hnodup,
          hfits⟩
        cases hall
        have hsplit : (order ++ others).reverse ++ seen
            = others.reverse ++ (order.reverse ++ seen) := by simp
        rw [hsplit] at hnodup ⊢
        have hnow : (order.reverse ++ seen).Nodup := (List.nodup_append.1 hnodup).2.1
        refine ⟨n, hn, ?_⟩
        rw [if_neg ((htop n).1 hroot)]
        refine bind_eq_ok.2 ⟨order, horder, bind_eq_ok.2 ⟨_, (checkLoops_eq_ok_iff hseen).2
          ⟨rfl, hnow, fun id hid => hfits id (List.mem_append_left _ hid)⟩, ?_⟩⟩
        exact (checkRoots_eq_ok_iff hnow).2
          ⟨htops, others, hothers, rfl, hnodup, fun id hid => hfits id (List.mem_append_right _ hid)⟩

theorem checkOwners_eq_ok_iff : ∀ pairs : List (String × LoopId),
    t.checkOwners pairs = .ok () ↔ ∀ p ∈ pairs, ∃ n, t.nodes[p.2]? = some n ∧ p.1 ∈ n.computations
  | [] => by simp [checkOwners]
  | (c, owner) :: rest => by
      cases hn : t.nodes[owner]? with
      | none => simp [checkOwners, node_eq_error hn, hn]
      | some n =>
        rw [checkOwners, node_eq hn, ok_bind]
        by_cases hc : c ∈ n.computations
        · rw [if_pos hc, checkOwners_eq_ok_iff rest]
          simp [hn, hc]
        · simp [hn, hc]

/-! ## Walks that end -/

/-- What the answer of a walk says of the links between the loops that it has
met, `ids` being the loops that it set out with. -/
structure Walked (t : Forest) (ids order : List LoopId) : Prop where
  pending : ids.Sublist order
  children : ∀ {id : LoopId}, id ∈ order →
    ∃ n, t.nodes[id]? = some n ∧ n.children.Sublist order
  source : ∀ {id : LoopId}, id ∈ order →
    id ∈ ids ∨ ∃ p ∈ order, ∃ m, t.nodes[p]? = some m ∧ id ∈ m.children

theorem Walked.nil : t.Walked [] [] := ⟨.slnil, by simp, by simp⟩

/-- A loop is visited, then the loops on the stack with its children on top. -/
theorem Walked.visit {id : LoopId} {n : Node} {rest order : List LoopId}
    (hn : t.nodes[id]? = some n) (h : t.Walked (n.children ++ rest) order) :
    t.Walked (id :: rest) (id :: order) where
  pending := ((List.sublist_append_right ..).trans h.pending).cons_cons id
  children {x} hx := by
    rcases List.mem_cons.1 hx with rfl | hx
    · exact ⟨n, hn, ((List.sublist_append_left ..).trans h.pending).cons x⟩
    · obtain ⟨m, hm, hchildren⟩ := h.children hx
      exact ⟨m, hm, hchildren.cons id⟩
  source {x} hx := by
    rcases List.mem_cons.1 hx with rfl | hx
    · exact Or.inl (List.mem_cons_self ..)
    · rcases h.source hx with hstack | ⟨p, hp, m, hm, hc⟩
      · rcases List.mem_append.1 hstack with hc | hrest
        · exact Or.inr ⟨id, List.mem_cons_self .., n, hn, hc⟩
        · exact Or.inl (List.mem_cons_of_mem _ hrest)
      · exact Or.inr ⟨p, List.mem_cons_of_mem _ hp, m, hm, hc⟩

/-- One walk after the other. -/
theorem Walked.append {ids ids' order order' : List LoopId} (h : t.Walked ids order)
    (h' : t.Walked ids' order') : t.Walked (ids ++ ids') (order ++ order') where
  pending := h.pending.append h'.pending
  children {x} hx := by
    rcases List.mem_append.1 hx with hx | hx
    · obtain ⟨m, hm, hchildren⟩ := h.children hx
      exact ⟨m, hm, hchildren.trans (List.sublist_append_left ..)⟩
    · obtain ⟨m, hm, hchildren⟩ := h'.children hx
      exact ⟨m, hm, hchildren.trans (List.sublist_append_right ..)⟩
  source {x} hx := by
    rcases List.mem_append.1 hx with hx | hx
    · rcases h.source hx with hx | ⟨p, hp, hlists⟩
      · exact Or.inl (List.mem_append_left _ hx)
      · exact Or.inr ⟨p, List.mem_append_left _ hp, hlists⟩
    · rcases h'.source hx with hx | ⟨p, hp, hlists⟩
      · exact Or.inl (List.mem_append_right _ hx)
      · exact Or.inr ⟨p, List.mem_append_right _ hp, hlists⟩

theorem walked_of_walk : ∀ {fuel : Nat} {ids order : List LoopId},
    t.walk fuel ids = .ok order → t.Walked ids order
  | _, [], order, h => by
      rw [walk, Except.ok.injEq] at h
      exact h ▸ .nil
  | 0, id :: rest, order, h => by
      simp only [walk, bind_eq_ok] at h
      obtain ⟨_, -, h⟩ := h
      cases h
  | fuel + 1, id :: rest, order, h => by
      simp only [walk, bind_eq_ok, node_eq_ok_iff] at h
      obtain ⟨n, hn, later, hlater, h⟩ := h
      cases h
      exact .visit hn (walked_of_walk hlater)

theorem walked_of_preorders : ∀ {ids order : List LoopId},
    t.preorders ids = .ok order → t.Walked ids order
  | [], order, h => by
      cases h
      exact .nil
  | id :: rest, order, h => by
      simp only [preorders, bind_eq_ok] at h
      obtain ⟨first, hfirst, others, hothers, h⟩ := h
      cases h
      exact (walked_of_walk hfirst).append (walked_of_preorders hothers)

/-- A walk over the roots that meets every loop once, where every loop fits and
the roots are topmost, has gone through a linked forest. -/
theorem Walked.linked {order : List LoopId} (h : t.Walked t.roots order)
    (hid : ∀ {id : LoopId} {n : Node}, t.nodes[id]? = some n → n.id = id)
    (htop : ∀ r ∈ t.roots, t.Topmost r) (hnodup : order.Nodup)
    (hall : ∀ {id : LoopId} {n : Node}, t.nodes[id]? = some n → id ∈ order)
    (hfits : ∀ id ∈ order, t.Fits id) : t.Linked := by
  -- a listed loop names its lister
  have hnames : ∀ {id c : LoopId} {n : Node}, t.nodes[id]? = some n → c ∈ n.children →
      ∃ m, t.nodes[c]? = some m ∧ m.parent = some id ∧ m.level = n.level + 1 := by
    intro id c n hn hc
    obtain ⟨n', hn', hbelow⟩ := hfits id (hall hn)
    rw [hn] at hn'
    cases hn'
    exact hbelow c hc
  -- so a loop either is a root or has been met as a child
  have hsource : ∀ {id : LoopId} {n : Node}, t.nodes[id]? = some n →
      (id ∈ t.roots ∧ n.parent = none ∧ n.level = 0) ∨
        ∃ p m, t.nodes[p]? = some m ∧ id ∈ m.children ∧ n.parent = some p ∧
          n.level = m.level + 1 := by
    intro id n hn
    rcases h.source (hall hn) with hroot | ⟨p, -, m, hm, hc⟩
    · obtain ⟨n', hn', htop⟩ := htop id hroot
      rw [hn] at hn'
      cases hn'
      exact Or.inl ⟨hroot, htop⟩
    · obtain ⟨n', hn', hp, hl⟩ := hnames hm hc
      rw [hn] at hn'
      cases hn'
      exact Or.inr ⟨p, m, hm, hc, hp, hl⟩
  refine { id_eq := hid, roots_nodup := hnodup.sublist h.pending, mem_roots := ?_,
           level_root := ?_, above := ?_, below := ?_, children_nodup := ?_ }
  · intro id
    constructor
    · intro hroot
      obtain ⟨n, hn, hp, -⟩ := htop id hroot
      exact ⟨n, hn, hp⟩
    · rintro ⟨n, hn, hp⟩
      rcases hsource hn with ⟨hroot, -⟩ | ⟨p, -, -, -, hp', -⟩
      · exact hroot
      · rw [hp] at hp'
        cases hp'
  · intro id n hn hp
    rcases hsource hn with ⟨-, -, hl⟩ | ⟨p, -, -, -, hp', -⟩
    · exact hl
    · rw [hp] at hp'
      cases hp'
  · intro id p n hn hp
    rcases hsource hn with ⟨-, hp', -⟩ | ⟨p', m, hm, hc, hp', hl⟩
    · rw [hp] at hp'
      cases hp'
    · rw [hp] at hp'
      cases hp'
      exact ⟨m, hm, hc, hl⟩
  · intro id c n hn hc
    obtain ⟨m, hm, hp, -⟩ := hnames hn hc
    exact ⟨m, hm, hp⟩
  · intro id n hn
    obtain ⟨n', hn', hchildren⟩ := h.children (hall hn)
    rw [hn] at hn'
    cases hn'
    exact hnodup.sublist hchildren

/-- Loops that are there, as many different ones as the forest has, are all of
them. -/
theorem mem_of_nodup_of_length {order : List LoopId} (hnodup : order.Nodup)
    (hstored : ∀ id ∈ order, ∃ n, t.nodes[id]? = some n) (hlength : order.length = t.size)
    {id : LoopId} {n : Node} (hn : t.nodes[id]? = some n) : id ∈ order := by
  have hsub : order.Subperm t.nodes.keys := hnodup.subperm fun x hx => mem_keys_iff.2 (hstored x hx)
  have hperm : order.Perm t.nodes.keys := by
    refine hsub.perm_of_length_le (Nat.le_of_eq ?_)
    rw [hlength, Std.ExtTreeMap.length_keys, size]
  exact hperm.mem_iff.2 (mem_keys_iff.2 ⟨n, hn⟩)

/-- The forests that pass the check are the linked ones in which every owner
holds what it is said to hold. -/
theorem check_eq_ok_iff_linked
    (hid : ∀ {id : LoopId} {n : Node}, t.nodes[id]? = some n → n.id = id) :
    t.check = .ok () ↔ t.Linked ∧ ∀ {c : String} {id : LoopId}, t.owners[c]? = some id →
      ∃ n, t.nodes[id]? = some n ∧ c ∈ n.computations := by
  have howners : t.checkOwners t.owners.toList = .ok () ↔ ∀ {c : String} {id : LoopId},
      t.owners[c]? = some id → ∃ n, t.nodes[id]? = some n ∧ c ∈ n.computations := by
    simp [checkOwners_eq_ok_iff, Prod.forall, Std.ExtTreeMap.mem_toList_iff_getElem?_eq_some]
  rw [← howners, check]
  simp only [bind_eq_ok, checkRoots_eq_ok_iff List.nodup_nil, List.append_nil]
  constructor
  · rintro ⟨_, ⟨htop, order, horder, rfl, hnodup, hfits⟩, h⟩
    by_cases hcount : order.reverse.length = t.size
    · rw [if_pos hcount] at h
      rw [List.nodup_reverse] at hnodup
      rw [List.length_reverse] at hcount
      have hwalked := walked_of_preorders horder
      refine ⟨hwalked.linked hid htop hnodup (fun hn => ?_) hfits, h⟩
      exact mem_of_nodup_of_length hnodup
        (fun id hmem => (hfits id hmem).imp fun _ hn => hn.1) hcount hn
    · rw [if_neg hcount] at h
      cases h
  · rintro ⟨hlinked, h⟩
    refine ⟨t.listing.reverse, ⟨fun r hr => hlinked.exists_node_of_mem_roots hr, t.listing,
      hlinked.order_eq, rfl, List.nodup_reverse.2 hlinked.nodup_listing, fun id hmem => ?_⟩, ?_⟩
    · obtain ⟨n, hn⟩ := hlinked.mem_listing.1 hmem
      exact ⟨n, hn, fun c hc => hlinked.child hn hc⟩
    · rw [if_pos (by rw [List.length_reverse, hlinked.length_listing])]
      exact h

end Forest

end LoopNest
