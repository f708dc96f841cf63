import LoopNest.Proofs.Forest.ReadBack
import LoopNest.Proofs.Forest.Reachable

/-!
LoopNest.Proofs.Forest.Staging — an interchange in place.

On a forest that is kept in a variable, an interchange that is given up
half-way would be seen.  So it works out the new nodes apart from the forest,
in a map of staged nodes, and writes only when nothing can fail any more
(`interchangeInPlace`).  What it reads meanwhile are the staged nodes on top
of the forest's own, and these are the nodes that `interchange` goes on with:
the two agree on every forest, sound or not, and where they fail the variable
holds the forest it held before (`interchangeInPlace_eq`).

* `relist_union`, `rehang_union` — staging and then laying the staged nodes
  over the forest comes to the same as writing at once;
* `Reachable.interchange_refused_iff` — the only reason for a refusal is that
  one of the two loops is not there.
-/

namespace LoopNest

namespace Forest

/-! ## Staging, then writing -/

/-- The roots once the two loops are exchanged wherever some places name the
list of roots. -/
def stageRoots (swap : LoopId → LoopId) (roots : List LoopId) :
    List (Option LoopId) → List LoopId
  | [] => roots
  | none :: rest => stageRoots swap (roots.map swap) rest
  | some _ :: rest => stageRoots swap roots rest

/-- Stage the parents among some places with the two loops exchanged in their
child lists. -/
def stageParents (t : Forest) (swap : LoopId → LoopId) (staged : LoopMap Node) :
    List (Option LoopId) → Except Error (LoopMap Node)
  | [] => .ok staged
  | none :: rest => t.stageParents swap staged rest
  | some parent :: rest => do
    let node ← t.node parent
    t.stageParents swap
      (staged.insert parent { node with children := node.children.map swap }) rest

/-- Stage children with their new parent.  A child that is staged already
keeps what was staged. -/
def stageChildren (t : Forest) (parent : LoopId) (staged : LoopMap Node) :
    List LoopId → Except Error (LoopMap Node)
  | [] => .ok staged
  | child :: rest =>
    match staged[child]?.or t.nodes[child]? with
    | none => .error (.unknownLoop child)
    | some node =>
      t.stageChildren parent (staged.insert child { node with parent := some parent }) rest

/-- Two different loops, of which the nodes are given, change places in the
forest at hand. -/
def exchangeInPlace (a b : LoopId) (first second : Node) : EStateM Error Forest Unit := do
  let t ← get
  let newA := moved a b first second
  let newB := moved b a second first
  let places := listedFrom a b first second
  let parents ← MonadExcept.ofExcept (t.stageParents (LoopId.swap a b) ∅ places)
  let belowA ← MonadExcept.ofExcept (t.stageChildren a parents (otherChildren a b newA))
  let staged ← MonadExcept.ofExcept (t.stageChildren b belowA (otherChildren a b newB))
  modify fun t => { t with nodes := t.nodes ∪ (staged.insert a newA).insert b newB }
  modify fun t => { t with roots := stageRoots (LoopId.swap a b) t.roots places }
  modify fun t =>
    { t with owners := reown b (reown a t.owners newA.computations) newB.computations }

/-- Two loops change places in the forest at hand. -/
def interchangeInPlace (a b : LoopId) : EStateM Error Forest Unit := do
  let t ← get
  let first ← MonadExcept.ofExcept (t.partner a b a)
  let second ← MonadExcept.ofExcept (t.partner a b b)
  if a = b then pure () else exchangeInPlace a b first second

/-! ## Staged nodes lie over the forest -/

variable {t : Forest} {a b : LoopId}

theorem union_insert (nodes staged : LoopMap Node) (id : LoopId) (n : Node) :
    nodes ∪ staged.insert id n = (nodes ∪ staged).insert id n := by
  refine Std.ExtTreeMap.ext_getElem? fun other => ?_
  simp only [Std.ExtTreeMap.getElem?_union, Std.ExtTreeMap.getElem?_insert]
  split <;> rfl

/-- The roots are named once at most. -/
theorem stageRoots_eq (swap : LoopId → LoopId) {places : List (Option LoopId)}
    (roots : List LoopId) (hnodup : places.Nodup) :
    stageRoots swap roots places = if none ∈ places then roots.map swap else roots := by
  induction places generalizing roots with
  | nil => rfl
  | cons place rest ih =>
    rw [List.nodup_cons] at hnodup
    cases place with
    | none => simp [stageRoots, ih _ hnodup.2, hnodup.1]
    | some parent => simp [stageRoots, ih _ hnodup.2]

/-- The parents are read in the forest itself: none of them is named twice,
so none was staged before it is its turn. -/
theorem relist_union (swap : LoopId → LoopId) {places : List (Option LoopId)}
    {staged : LoopMap Node} (hnodup : places.Nodup)
    (hfresh : ∀ p, some p ∈ places → staged[p]? = none) :
    relist swap (t.nodes ∪ staged) places
      = (t.nodes ∪ ·) <$> t.stageParents swap staged places := by
  induction places generalizing staged with
  | nil => rfl
  | cons place rest ih =>
    rw [List.nodup_cons] at hnodup
    have hrest : ∀ p, some p ∈ rest → staged[p]? = none :=
      fun p hp => hfresh p (List.mem_cons_of_mem _ hp)
    cases place with
    | none => exact ih hnodup.2 hrest
    | some parent =>
      have hparent : staged[parent]? = none := hfresh parent (List.mem_cons_self ..)
      rw [relist, stageParents, node, Std.ExtTreeMap.getElem?_union, hparent, Option.none_or]
      cases t.nodes[parent]? with
      | none => rfl
      | some n =>
        simp only [ok_bind, ← union_insert]
        refine ih hnodup.2 fun p hp => ?_
        have hne : parent ≠ p := fun e => hnodup.1 (e ▸ hp)
        simpa [Std.ExtTreeMap.getElem?_insert, hne] using hrest p hp

theorem rehang_union (parent : LoopId) (ids : List LoopId) (staged : LoopMap Node) :
    rehang parent (t.nodes ∪ staged) ids
      = (t.nodes ∪ ·) <$> t.stageChildren parent staged ids := by
  induction ids generalizing staged with
  | nil => rfl
  | cons child rest ih =>
    rw [rehang, stageChildren, Std.ExtTreeMap.getElem?_union]
    cases staged[child]?.or t.nodes[child]? with
    | none => rfl
    | some n =>
      simp only [← union_insert]
      exact ih _

/-! ## The variable in which a forest is kept -/

/-- What an operation on a forest does to a variable: the forest it gives
replaces the one at hand, and a failure leaves that one alone. -/
def replacing (t : Forest) : Except Error Forest → EStateM.Result Error Forest Unit
  | .ok u => .ok () u
  | .error e => .error e t

/-- A step that only reads the forest at hand. -/
theorem run_bind_eq_replacing {α : Type} {x : Except Error α}
    {next : α → EStateM Error Forest Unit} {f : α → Except Error Forest}
    (hnext : ∀ v, (next v).run t = t.replacing (f v)) :
    (MonadExcept.ofExcept x >>= next).run t = t.replacing (x >>= f) := by
  cases x with
  | error e => rfl
  | ok v => exact hnext v

theorem exchangeInPlace_eq (t : Forest) (a b : LoopId) (first second : Node) :
    (exchangeInPlace a b first second).run t = t.replacing (t.exchange a b first second) := by
  have hplaces := nodup_listedFrom a b first second
  have hempty : t.nodes ∪ ∅ = t.nodes := by
    refine Std.ExtTreeMap.ext_getElem? fun id => ?_
    simp [Std.ExtTreeMap.getElem?_union]
  have hparents : relist (LoopId.swap a b) (t.nodes ∪ ∅) (listedFrom a b first second) = _ :=
    relist_union (LoopId.swap a b) hplaces fun p _ => by simp
  rw [hempty] at hparents
  simp only [exchange, ← stageRoots_eq _ _ hplaces, hparents, rehang_union, bind_map_left,
    ← union_insert]
  -- three readings that may fail, then the writing, which cannot
  refine run_bind_eq_replacing fun parents => ?_
  refine run_bind_eq_replacing fun belowA => ?_
  exact run_bind_eq_replacing fun staged => rfl

/-- In place or not, an interchange gives the same forest and fails alike;
where it fails, the forest at hand is the one from before. -/
theorem interchangeInPlace_eq (t : Forest) (a b : LoopId) :
    (interchangeInPlace a b).run t = t.replacing (t.interchange a b) := by
  refine run_bind_eq_replacing fun first => ?_
  refine run_bind_eq_replacing fun second => ?_
  by_cases hab : a = b
  · rw [if_pos hab, if_pos hab]
    rfl
  · rw [if_neg hab, if_neg hab]
    exact exchangeInPlace_eq t a b first second

/-! ## The only refusal -/

/-- The loops that an interchange looks up beside the two: those that list
one of them, and those that get a new parent. -/
def lookedUp (a b : LoopId) (first second : Node) : List LoopId :=
  (listedFrom a b first second).filterMap id ++
    otherChildren a b (moved a b first second) ++ otherChildren a b (moved b a second first)

theorem Linked.contains_of_mem_lookedUp (h : t.Linked) {first second : Node}
    (hfirst : t.nodes[a]? = some first) (hsecond : t.nodes[b]? = some second) {id : LoopId}
    (hid : id ∈ lookedUp a b first second) : t.contains id = true := by
  rw [lookedUp, moved_eq (h.parent_ne_self hsecond), moved_eq (h.parent_ne_self hfirst),
    Equiv.swap_comm b a, List.mem_append, List.mem_append] at hid
  rw [contains_eq_true_iff]
  rcases hid with (hlister | hbelow) | hbelow
  · obtain ⟨place, hplace, rfl⟩ := List.mem_filterMap.1 hlister
    exact h.exists_node_of_mem_listedFrom hfirst hsecond hplace
  · exact h.exists_node_of_mem_otherChildren hfirst hsecond hsecond hbelow
  · exact h.exists_node_of_mem_otherChildren hfirst hsecond hfirst hbelow

/-- An interchange is refused exactly if one of the two loops is not there, be
they two or twice the same.  The refusal names the first of them that is
missing and leaves the forest at hand as it was.  Otherwise every loop that
is looked up on the way is there, and the forest that takes the place of the
one at hand passes the check. -/
theorem Reachable.interchange_refused_iff (h : t.Reachable) (a b : LoopId) :
    let refusal := Error.disconnected a b (if t.contains a = true then b else a)
    ((∃ e, t.interchange a b = .error e) ↔ t.contains a = false ∨ t.contains b = false) ∧
      (∀ e, t.interchange a b = .error e →
        e = refusal ∧ (interchangeInPlace a b).run t = .error refusal t) ∧
      ∀ first second, t.nodes[a]? = some first → t.nodes[b]? = some second →
        (∀ id ∈ lookedUp a b first second, t.contains id = true) ∧
        ∃ u, t.interchange a b = .ok u ∧ (interchangeInPlace a b).run t = .ok () u ∧
          u.check = .ok () := by
  intro refusal
  have hcall := h.sound.interchange_eq a b
  have hdone := h.sound.exists_interchange_iff a b
  refine ⟨?_, fun e he => ?_, fun first second hfirst hsecond => ⟨fun id hid => ?_, ?_⟩⟩
  · cases ha : t.contains a <;> cases hb : t.contains b <;> simp [hcall, ha, hb]
  · have hrefusal : e = refusal := by
      cases ha : t.contains a <;> cases hb : t.contains b <;> simp_all [refusal]
    subst hrefusal
    exact ⟨rfl, by rw [interchangeInPlace_eq, he, replacing]⟩
  · exact h.sound.toLinked.contains_of_mem_lookedUp hfirst hsecond hid
  · obtain ⟨u, hu⟩ := hdone.2
      ⟨contains_eq_true_iff.2 ⟨first, hfirst⟩, contains_eq_true_iff.2 ⟨second, hsecond⟩⟩
    refine ⟨u, hu, ?_, (h.sound.of_interchange hu).check_eq⟩
    rw [interchangeInPlace_eq, hu, replacing]

/-- With `branching` at hand, a call that names a loop `x` is refused wherever
`x` stands in it, and a call that names the loops `i` and `k` puts `k` at the
root. -/
theorem branching_interchange_refused :
    ∃ t, ofTable .branching = .ok t ∧
      (interchangeInPlace ⟨"i"⟩ ⟨"x"⟩).run t = .error (.disconnected ⟨"i"⟩ ⟨"x"⟩ ⟨"x"⟩) t ∧
      (interchangeInPlace ⟨"x"⟩ ⟨"k"⟩).run t = .error (.disconnected ⟨"x"⟩ ⟨"k"⟩ ⟨"x"⟩) t ∧
      ∃ u, (interchangeInPlace ⟨"i"⟩ ⟨"k"⟩).run t = .ok () u ∧ u.roots = [⟨"k"⟩] ∧
        u.check = .ok () := by
  obtain ⟨t, ht⟩ : ∃ t, ofTable .branching = .ok t := ⟨_, rfl⟩
  obtain ⟨first, second, hi, hk⟩ : ∃ first second,
      t.nodes[(⟨"i"⟩ : LoopId)]? = some first ∧ t.nodes[(⟨"k"⟩ : LoopId)]? = some second := by
    cases ht
    exact ⟨_, _, rfl, rfl⟩
  have hx : t.contains ⟨"x"⟩ = false := by
    cases ht
    decide +kernel
  have hcalls := Reachable.interchange_refused_iff (.built ht)
  obtain ⟨e, he⟩ := (hcalls ⟨"i"⟩ ⟨"x"⟩).1.2 (Or.inr hx)
  have hlast := ((hcalls ⟨"i"⟩ ⟨"x"⟩).2.1 e he).2
  obtain ⟨e', he'⟩ := (hcalls ⟨"x"⟩ ⟨"k"⟩).1.2 (Or.inl hx)
  have hfront := ((hcalls ⟨"x"⟩ ⟨"k"⟩).2.1 e' he').2
  obtain ⟨-, u, hu, hrun, hcheck⟩ := (hcalls ⟨"i"⟩ ⟨"k"⟩).2.2 first second hi hk
  rw [if_pos (contains_eq_true_iff.2 ⟨first, hi⟩)] at hlast
  rw [if_neg (by simp [hx])] at hfront
  refine ⟨t, ht, hlast, hfront, u, hrun, ?_, hcheck⟩
  cases ht
  cases hu
  decide +kernel

end Forest

end LoopNest
