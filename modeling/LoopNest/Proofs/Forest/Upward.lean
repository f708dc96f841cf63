import LoopNest.Proofs.Forest.Equivariance
import LoopNest.Proofs.Forest.Lookup
import LoopNest.Proofs.Forest.Reachable

/-!
LoopNest.Proofs.Forest.Upward — what is met on the way up from a loop.

Roots, levels and ancestors are found by following parents, each with a limit
of its own on the number of steps, while the loops inside a loop are found by
following children.  In a forest that occurs no limit is ever reached, and the
two directions tell of the same nesting (`Reachable.upward_queries`).  The
test for an ancestor would do without any limit (`Climbs`).

From the loop that holds a computation the way up passes one loop at every
level that is no deeper (`Reachable.loopOf_finds`).

* `Linked.exists_ancestors` — as many ancestors as the level says;
* `Linked.climbs_iff` — the way up ends by itself.
-/

namespace LoopNest

namespace Forest

variable {t : Forest}

/-- The way up from a node, in search of `ancestor`, ends with an answer.  Steps
are not counted: a way that never ends has no answer. -/
inductive Climbs (t : Forest) (ancestor : LoopId) : Node → Except Error Bool → Prop
  | root {n : Node} (hp : n.parent = none) : t.Climbs ancestor n (.ok false)
  | met {n : Node} (hp : n.parent = some ancestor) : t.Climbs ancestor n (.ok true)
  | lost {n : Node} {p : LoopId} {e : Error} (hp : n.parent = some p) (hne : p ≠ ancestor)
      (habove : t.node p = .error e) : t.Climbs ancestor n (.error e)
  | up {n above : Node} {p : LoopId} {answer : Except Error Bool} (hp : n.parent = some p)
      (hne : p ≠ ancestor) (habove : t.node p = .ok above)
      (hclimb : t.Climbs ancestor above answer) : t.Climbs ancestor n answer

/-- The way up has one answer at most. -/
theorem Climbs.unique {a : LoopId} {n : Node} {x y : Except Error Bool}
    (hx : t.Climbs a n x) (hy : t.Climbs a n y) : x = y := by
  induction hx with
  | root hp => cases hy <;> simp_all
  | met hp => cases hy <;> simp_all
  | lost hp hne habove => cases hy <;> simp_all
  | up hp hne habove _ ih =>
    cases hy with
    | up hp' _ habove' hclimb =>
      rw [hp, Option.some.injEq] at hp'
      subst hp'
      rw [habove, Except.ok.injEq] at habove'
      exact ih (habove' ▸ hclimb)
    | _ => simp_all

/-! ## Roots, levels and ancestors -/

/-- A question about a loop that has an answer if the loop is there is refused
for absent loops only, by name. -/
theorem eq_error_iff_absent {α : Type} {id : LoopId} {answer : Except Error α}
    (habsent : t.nodes[id]? = none → answer = .error (.unknownLoop id))
    (hpresent : ∀ n, t.nodes[id]? = some n → ∃ v, answer = .ok v) (e : Error) :
    answer = .error e ↔ t.contains id = false ∧ e = .unknownLoop id := by
  rw [contains_eq_false_iff]
  cases hn : t.nodes[id]? with
  | none => simp [habsent hn, eq_comm]
  | some n =>
    obtain ⟨v, hv⟩ := hpresent n hn
    simp [hv]

namespace Linked

/-- The way up ends by itself, and the counted climb gives its answer. -/
theorem climbs_iff (h : t.Linked) {a id : LoopId} {m n : Node} (hm : t.nodes[a]? = some m)
    (hn : t.nodes[id]? = some n) (answer : Except Error Bool) :
    t.Climbs a n answer ↔ answer = t.isAncestor a id := by
  have hends : t.Climbs a n (t.isAncestor a id) := by
    rw [h.isAncestor_eq hm hn]
    refine h.fromRoots (motive := fun id => ∀ n, t.nodes[id]? = some n →
      t.Climbs a n (.ok (decide (id ≠ a ∧ id ∈ t.inside a)))) ?_ ?_ hn n hn
    · intro id n hn hp n' hn'
      rw [hn] at hn'
      cases hn'
      simp only [h.strictly_inside_iff hm hn, hp]
      simpa using Climbs.root hp
    · intro id n p k hn hp hk ih n' hn'
      rw [hn] at hn'
      cases hn'
      have hup : id ≠ a ∧ id ∈ t.inside a ↔ p ∈ t.inside a := by
        simp [h.strictly_inside_iff hm hn, hp]
      simp only [hup]
      by_cases hpa : p = a
      · subst hpa
        simpa [h.self_mem_inside hm] using Climbs.met hp
      · simpa [hpa] using Climbs.up hp hpa (node_eq hk) (ih k hk)
  exact ⟨fun hclimb => hclimb.unique hends, fun hanswer => hanswer ▸ hends⟩

/-- A loop has as many ancestors as its level says. -/
theorem exists_ancestors (h : t.Linked) {id : LoopId} {n : Node} (hn : t.nodes[id]? = some n) :
    ∃ above : List LoopId, above.Nodup ∧ above.length = n.level ∧
      ∀ a, a ∈ above ↔ ∃ m, t.nodes[a]? = some m ∧ id ≠ a ∧ id ∈ t.inside a := by
  refine h.fromRoots (motive := fun id => ∀ n, t.nodes[id]? = some n →
    ∃ above : List LoopId, above.Nodup ∧ above.length = n.level ∧
      ∀ a, a ∈ above ↔ ∃ m, t.nodes[a]? = some m ∧ id ≠ a ∧ id ∈ t.inside a) ?_ ?_ hn n hn
  · intro id n hn hp n' hn'
    rw [hn] at hn'
    cases hn'
    refine ⟨[], .nil, (h.level_root hn hp).symm, fun a => ?_⟩
    constructor
    · intro ha
      cases ha
    · rintro ⟨m, hm, hinside⟩
      obtain ⟨p, hp', -⟩ := (h.strictly_inside_iff hm hn).1 hinside
      rw [hp] at hp'
      cases hp'
  · intro id n p k hn hp hk ih n' hn'
    rw [hn] at hn'
    cases hn'
    obtain ⟨above, hnodup, hlength, habove⟩ := ih k hk
    obtain ⟨k', hk', -, hlevel⟩ := h.above hn hp
    rw [hk] at hk'
    cases hk'
    refine ⟨p :: above, List.nodup_cons.2 ⟨fun hmem => ?_, hnodup⟩, ?_, fun a => ?_⟩
    · obtain ⟨_, -, hne, -⟩ := (habove p).1 hmem
      exact hne rfl
    · rw [List.length_cons, hlength, hlevel]
    · rw [List.mem_cons, habove]
      constructor
      · rintro (rfl | ⟨m, hm, -, hinside⟩)
        · exact ⟨k, hk, (h.strictly_inside_iff hk hn).2 ⟨a, hp, h.self_mem_inside hk⟩⟩
        · exact ⟨m, hm, (h.strictly_inside_iff hm hn).2 ⟨p, hp, hinside⟩⟩
      · rintro ⟨m, hm, hinside⟩
        obtain ⟨p', hp', hpa⟩ := (h.strictly_inside_iff hm hn).1 hinside
        rw [hp] at hp'
        cases hp'
        by_cases hne : p = a
        · exact Or.inl hne.symm
        · exact Or.inr ⟨m, hm, hne, hpa⟩

/-- The one root that a loop is inside is the root of the loop. -/
theorem exists_rootOf (h : t.Linked) {id : LoopId} {n : Node} (hn : t.nodes[id]? = some n) :
    ∃ root, t.rootOf id = .ok root ∧ ∀ r, (r ∈ t.roots ∧ id ∈ t.inside r) ↔ r = root := by
  obtain ⟨root, hroot, hid⟩ := List.mem_flatMap.1 (h.mem_listing.2 ⟨n, hn⟩)
  have hfound := h.rootOf_eq hroot hid
  refine ⟨root, hfound, fun r => ⟨?_, ?_⟩⟩
  · rintro ⟨hr, hmem⟩
    rw [h.rootOf_eq hr hmem] at hfound
    exact Except.ok.inj hfound
  · rintro rfl
    exact ⟨hroot, hid⟩

/-- An ancestor is there, and the walk from it meets the loop. -/
theorem isAncestor_eq_true_iff (h : t.Linked) {a id : LoopId} {n : Node}
    (hn : t.nodes[id]? = some n) : t.isAncestor a id = .ok true ↔
      ∃ m, t.nodes[a]? = some m ∧ id ≠ a ∧ id ∈ t.inside a := by
  cases hm : t.nodes[a]? with
  | none => simp [isAncestor_eq_error_above hn hm]
  | some m => simp [h.isAncestor_eq hm hn]

/-- Being above is refused only for an absent loop, the lower one first. -/
theorem isAncestor_eq_error_iff (h : t.Linked) (a id : LoopId) (e : Error) :
    t.isAncestor a id = .error e ↔ (t.contains id = false ∨ t.contains a = false) ∧
      e = .unknownLoop (if t.contains id then a else id) := by
  cases hn : t.nodes[id]? with
  | none =>
    have hid : t.contains id = false := contains_eq_false_iff.2 hn
    simp [isAncestor_eq_error a hn, hid, eq_comm (a := e)]
  | some n =>
    have hid : t.contains id = true := contains_eq_true_iff.2 ⟨n, hn⟩
    cases hm : t.nodes[a]? with
    | none =>
      have ha : t.contains a = false := contains_eq_false_iff.2 hm
      simp [isAncestor_eq_error_above hn hm, hid, ha, eq_comm (a := e)]
    | some m =>
      have ha : t.contains a = true := contains_eq_true_iff.2 ⟨m, hm⟩
      simp [h.isAncestor_eq hm hn, hid, ha]

end Linked

/-- Questions about a loop are answered alike on the way up and on the way down.

The root of a loop is the one root whose walk meets the loop, its level is the
one it carries and counts its ancestors, and a loop is an ancestor of those
loops that its walk meets after it.  No level reaches the number of loops, so
no way up is given up as too long, and an ancestor is found or missed without
counting steps at all.  All that can be wrong with such a question is that it
names an absent loop; of two absent ones the lower is reported. -/
theorem Reachable.upward_queries (h : t.Reachable) :
    (∀ (id : LoopId) (n : Node), t.nodes[id]? = some n →
      (∃ root, t.rootOf id = .ok root ∧ ∀ r,
        (r ∈ t.roots ∧ ∃ order, t.preorder r = .ok order ∧ id ∈ order) ↔ r = root) ∧
      t.levelOf id = .ok n.level ∧ n.level + 1 ≤ t.size ∧
      ∃ above : List LoopId, above.Nodup ∧ above.length = n.level ∧
        ∀ a, a ∈ above ↔ t.isAncestor a id = .ok true) ∧
    (∀ (a id : LoopId) (m n : Node), t.nodes[a]? = some m → t.nodes[id]? = some n →
      (∀ answer, t.Climbs a n answer ↔ answer = t.isAncestor a id) ∧
      ∃ order, t.preorder a = .ok order ∧
        t.isAncestor a id = .ok (decide (id ≠ a ∧ id ∈ order))) ∧
    (∀ id e, t.rootOf id = .error e ↔ t.contains id = false ∧ e = .unknownLoop id) ∧
    (∀ id e, t.levelOf id = .error e ↔ t.contains id = false ∧ e = .unknownLoop id) ∧
    ∀ a id e, t.isAncestor a id = .error e ↔
      (t.contains id = false ∨ t.contains a = false) ∧
        e = .unknownLoop (if t.contains id then a else id) := by
  have hlinked := h.sound.toLinked
  have hmeets : ∀ r id, (r ∈ t.roots ∧ ∃ order, t.preorder r = .ok order ∧ id ∈ order) ↔
      r ∈ t.roots ∧ id ∈ t.inside r := by
    refine fun r id => and_congr_right fun hr => ?_
    obtain ⟨k, hk, -⟩ := hlinked.exists_node_of_mem_roots hr
    simp [hlinked.preorder_eq hk]
  refine ⟨fun id n hn => ⟨?_, hlinked.levelOf_eq hn, hlinked.level_lt_size hn, ?_⟩,
    fun a id m n hm hn => ⟨hlinked.climbs_iff hm hn, _, hlinked.preorder_eq hm,
      hlinked.isAncestor_eq hm hn⟩,
    fun id => eq_error_iff_absent rootOf_eq_error fun n hn => ?_,
    fun id => eq_error_iff_absent levelOf_eq_error fun n hn => ⟨_, hlinked.levelOf_eq hn⟩,
    hlinked.isAncestor_eq_error_iff⟩
  · obtain ⟨root, hroot, honly⟩ := hlinked.exists_rootOf hn
    exact ⟨root, hroot, fun r => (hmeets r id).trans (honly r)⟩
  · obtain ⟨above, hnodup, hlength, habove⟩ := hlinked.exists_ancestors hn
    exact ⟨above, hnodup, hlength, fun a =>
      (habove a).trans (hlinked.isAncestor_eq_true_iff hn).symm⟩
  · exact (hlinked.exists_rootOf hn).imp fun _ hroot => hroot.1

/-- In `twoDeep`, its two loops exchanged, `i` lies as deep as two loops can, and
the way up from it ends at `j`. -/
theorem twoDeep_upward :
    ∃ t u n, ofTable .twoDeep = .ok t ∧ t.interchange ⟨"i"⟩ ⟨"j"⟩ = .ok u ∧
      u.nodes[(⟨"i"⟩ : LoopId)]? = some n ∧ n.level + 1 = u.size ∧
      u.rootOf ⟨"i"⟩ = .ok ⟨"j"⟩ ∧ u.levelOf ⟨"i"⟩ = .ok 1 ∧
      u.Climbs ⟨"j"⟩ n (.ok true) ∧
      u.isAncestor ⟨"j"⟩ ⟨"x"⟩ = .error (.unknownLoop ⟨"x"⟩) := by
  obtain ⟨t, ht⟩ : ∃ t, ofTable .twoDeep = .ok t := ⟨_, rfl⟩
  obtain ⟨u, hu⟩ : ∃ u, t.interchange ⟨"i"⟩ ⟨"j"⟩ = .ok u := by
    cases ht
    exact ⟨_, rfl⟩
  obtain ⟨n, m, hn, hm, hlevel, hsize⟩ : ∃ n m, u.nodes[(⟨"i"⟩ : LoopId)]? = some n ∧
      u.nodes[(⟨"j"⟩ : LoopId)]? = some m ∧ n.level = 1 ∧ u.size = 2 := by
    cases ht
    cases hu
    exact ⟨_, _, rfl, rfl, rfl, rfl⟩
  obtain ⟨hroots, hpreorder, habsent⟩ : u.roots = [⟨"j"⟩] ∧
      u.preorder ⟨"j"⟩ = .ok [⟨"j"⟩, ⟨"i"⟩] ∧ u.contains ⟨"x"⟩ = false := by
    cases ht
    cases hu
    exact ⟨rfl, rfl, by decide +kernel⟩
  obtain ⟨hqueries, hancestors, -, -, herrors⟩ :=
    Reachable.upward_queries (.interchanged (.built ht) hu)
  obtain ⟨⟨root, hroot, honly⟩, hcount, -⟩ := hqueries _ n hn
  obtain ⟨hclimb, order, horder, hanswer⟩ := hancestors _ _ m n hm hn
  obtain rfl : (⟨"j"⟩ : LoopId) = root :=
    (honly ⟨"j"⟩).1 ⟨by simp [hroots], _, hpreorder, by simp⟩
  rw [hpreorder] at horder
  cases horder
  refine ⟨t, u, n, ht, hu, hn, by rw [hlevel, hsize], hroot, hlevel ▸ hcount, ?_, ?_⟩
  · rw [hclimb, hanswer]
    decide
  · exact (herrors _ _ _).2 ⟨Or.inl habsent, by rw [if_neg (by simp [habsent])]⟩

/-! ## The loops around a computation -/

/-- A loop is inside exactly one loop of every level that is no deeper. -/
theorem Linked.exists_around (h : t.Linked) {id : LoopId} {n : Node}
    (hn : t.nodes[id]? = some n) {level : Nat} (hlevel : level ≤ n.level) :
    ∃ x k, t.nodes[x]? = some k ∧ k.level = level ∧ id ∈ t.inside x ∧
      ∀ y m, t.nodes[y]? = some m → m.level = level → id ∈ t.inside y → y = x := by
  obtain ⟨x, k, hk, hkl, hid⟩ :
      ∃ (x : LoopId) (k : Node), t.nodes[x]? = some k ∧ k.level = level ∧ id ∈ t.inside x := by
    refine h.fromRoots (motive := fun id => ∀ n, t.nodes[id]? = some n → level ≤ n.level →
      ∃ x k, t.nodes[x]? = some k ∧ k.level = level ∧ id ∈ t.inside x) ?_ ?_ hn n hn hlevel
    · intro id n hn hp n' hn' hle
      have hroot := h.level_root hn' (by rw [hn] at hn'; cases hn'; exact hp)
      exact ⟨id, n', hn', by omega, h.self_mem_inside hn'⟩
    · intro id n p m hn hp hm ih n' hn' hle
      rw [hn] at hn'
      cases hn'
      obtain ⟨m', hm', -, hlm⟩ := h.above hn hp
      rw [hm] at hm'
      cases hm'
      rcases Nat.eq_or_lt_of_le hle with rfl | hlt
      · exact ⟨id, n, hn, rfl, h.self_mem_inside hn⟩
      · obtain ⟨x, k, hk, hkl, hpx⟩ := ih m hm (by omega)
        exact ⟨x, k, hk, hkl, (h.mem_inside_iff hk hn).2 (Or.inr ⟨p, hp, hpx⟩)⟩
  exact ⟨x, k, hk, hkl, hid, fun y m hm hml hidy =>
    h.eq_of_mem_inside hm hk (hml.trans hkl.symm) hn hidy hid⟩

namespace Sound

/-- A computation that no loop holds is not found. -/
theorem loopOf_eq_unknown (h : t.Sound) {c : String}
    (hc : ∀ (id : LoopId) (n : Node), t.nodes[id]? = some n → c ∉ n.computations) (level : Option Nat) :
    t.loopOf c level = .error (.unknownComputation c) := by
  have howner : t.owners[c]? = none := by
    cases howner : t.owners[c]? with
    | none => rfl
    | some id =>
      obtain ⟨n, hn, hcn⟩ := h.owner_iff.1 howner
      exact absurd hcn (hc id n hn)
  simp only [loopOf, howner]

/-- The loop that holds a computation, and what is said of levels below it. -/
theorem loopOf_holder (h : t.Sound) {c : String} {id : LoopId} {n : Node}
    (hn : t.nodes[id]? = some n) (hc : c ∈ n.computations) :
    t.loopOf c none = .ok n ∧
      ∀ level, n.level < level →
        t.loopOf c (some level) = .error (.levelOutOfRange c level n.level) := by
  have howner : t.owners[c]? = some id := h.owner_iff.2 ⟨n, hn, hc⟩
  constructor
  · simp only [loopOf, howner, node_eq hn, ok_bind]
    rfl
  · intro level hlevel
    simp only [loopOf, howner, node_eq hn, ok_bind, if_pos hlevel]

/-- At a level no deeper than its holder, a computation is found in the one loop
of this level that the holder is inside. -/
theorem exists_loopOf (h : t.Sound) {c : String} {id : LoopId} {n : Node}
    (hn : t.nodes[id]? = some n) (hc : c ∈ n.computations) {level : Nat}
    (hlevel : level ≤ n.level) :
    ∃ x k, t.nodes[x]? = some k ∧ t.loopOf c (some level) = .ok k ∧
      ∀ (y : LoopId) (m : Node), t.nodes[y]? = some m →
        (m.level = level ∧ id ∈ t.inside y ↔ y = x) := by
  obtain ⟨x, k, hk, rfl, hid, honly⟩ := h.toLinked.exists_around hn hlevel
  have hinside : c ∈ (t.inside x).flatMap t.computationsOf :=
    List.mem_flatMap.2 ⟨id, hid, mem_computationsOf.2 ⟨n, hn, hc⟩⟩
  refine ⟨x, k, hk, h.loopOf_eq hk hinside, fun y m hm => ⟨fun hy => honly y m hm hy.1 hy.2, ?_⟩⟩
  rintro rfl
  rw [hm] at hk
  cases hk
  exact ⟨rfl, hid⟩

/-- A computation that is held is found, or the level lies below its holder. -/
theorem loopOf_cases (h : t.Sound) {c : String} {id : LoopId} {n : Node}
    (hn : t.nodes[id]? = some n) (hc : c ∈ n.computations) (level : Option Nat) :
    (∃ k, t.loopOf c level = .ok k) ∨
      ∃ l, t.loopOf c level = .error (.levelOutOfRange c l n.level) := by
  obtain ⟨hholder, hbelow⟩ := h.loopOf_holder hn hc
  cases level with
  | none => exact Or.inl ⟨n, hholder⟩
  | some l =>
    rcases Nat.lt_or_ge n.level l with hl | hl
    · exact Or.inr ⟨l, hbelow l hl⟩
    · obtain ⟨x, k, -, hk, -⟩ := h.exists_loopOf hn hc hl
      exact Or.inl ⟨k, hk⟩

end Sound

/-- Looking up a computation, alone or with a level.

One loop holds the computation, or it is unknown.  Without a level the answer
is that loop.  With a level it is the one loop of this level whose walk meets
the holder, unless the level lies below the holder, whose own level is then
reported.  No defect of the forest is ever reported. -/
theorem Reachable.loopOf_finds (h : t.Reachable) (c : String) :
    (∀ level, t.loopOf c level = .error (.unknownComputation c) ↔
      ∀ (id : LoopId) (n : Node), t.nodes[id]? = some n → c ∉ n.computations) ∧
    (∀ (id : LoopId) (n : Node), t.nodes[id]? = some n → c ∈ n.computations →
      (∀ (other : LoopId) (m : Node),
        t.nodes[other]? = some m → c ∈ m.computations → other = id) ∧
      t.loopOf c none = .ok n ∧
      (∀ level ≤ n.level, ∃ x k, t.nodes[x]? = some k ∧ t.loopOf c (some level) = .ok k ∧
        ∀ (y : LoopId) (m : Node), t.nodes[y]? = some m →
          (m.level = level ∧ (∃ order, t.preorder y = .ok order ∧ id ∈ order) ↔ y = x)) ∧
      ∀ level, n.level < level →
        t.loopOf c (some level) = .error (.levelOutOfRange c level n.level)) ∧
    ∀ level id defect, t.loopOf c level ≠ .error (.invalidNode id defect) := by
  have hsound := h.sound
  refine ⟨fun level => ⟨fun hunknown id n hn hc => ?_, fun hc => hsound.loopOf_eq_unknown hc level⟩,
    fun id n hn hc => ⟨fun other m hm hcm => ?_, (hsound.loopOf_holder hn hc).1,
      fun level hlevel => ?_, (hsound.loopOf_holder hn hc).2⟩, fun level id defect hdefect => ?_⟩
  · rcases hsound.loopOf_cases hn hc level with ⟨k, hk⟩ | ⟨l, hl⟩
    · rw [hk] at hunknown
      cases hunknown
    · rw [hl] at hunknown
      cases hunknown
  · -- a computation has one owner
    have hother := hsound.owner_iff.2 ⟨m, hm, hcm⟩
    rw [hsound.owner_iff.2 ⟨n, hn, hc⟩] at hother
    exact (Option.some.inj hother).symm
  · obtain ⟨x, k, hk, hfound, honly⟩ := hsound.exists_loopOf hn hc hlevel
    refine ⟨x, k, hk, hfound, fun y m hm => ?_⟩
    rw [← honly y m hm]
    simp [hsound.toLinked.preorder_eq hm]
  · by_cases hc : ∃ (id : LoopId) (n : Node), t.nodes[id]? = some n ∧ c ∈ n.computations
    · obtain ⟨id, n, hn, hc⟩ := hc
      rcases hsound.loopOf_cases hn hc level with ⟨k, hk⟩ | ⟨l, hl⟩
      · rw [hk] at hdefect
        cases hdefect
      · rw [hl] at hdefect
        cases hdefect
    · rw [hsound.loopOf_eq_unknown (fun id n hn hcn => hc ⟨id, n, hn, hcn⟩) level] at hdefect
      cases hdefect

/-- In `branching`, its loops `i` and `k` exchanged, `T` is found two levels
below the root and, one level up, in `i`; a third level there is not. -/
theorem branching_loopOf :
    ∃ t u, ofTable .branching = .ok t ∧ t.interchange ⟨"i"⟩ ⟨"k"⟩ = .ok u ∧
      (∃ n, u.loopOf "T" none = .ok n ∧ n.id = ⟨"l"⟩) ∧
      (∃ n, u.loopOf "T" (some 1) = .ok n ∧ n.id = ⟨"i"⟩) ∧
      u.loopOf "T" (some 3) = .error (.levelOutOfRange "T" 3 2) ∧
      u.loopOf "i" (some 0) = .error (.unknownComputation "i") := by
  obtain ⟨t, ht⟩ : ∃ t, ofTable .branching = .ok t := ⟨_, rfl⟩
  obtain ⟨u, hu⟩ : ∃ u, t.interchange ⟨"i"⟩ ⟨"k"⟩ = .ok u := by
    cases ht
    exact ⟨_, rfl⟩
  have hreachable : u.Reachable := .interchanged (.built ht) hu
  obtain ⟨n, m, hn, hm, hholds, hlevels, hwalk⟩ : ∃ n m, u.nodes[(⟨"l"⟩ : LoopId)]? = some n ∧
      u.nodes[(⟨"i"⟩ : LoopId)]? = some m ∧ "T" ∈ n.computations ∧
      (n.level = 2 ∧ m.level = 1) ∧ u.preorder ⟨"i"⟩ = .ok [⟨"i"⟩, ⟨"l"⟩] := by
    cases ht
    cases hu
    exact ⟨_, _, rfl, rfl, by decide +kernel, ⟨rfl, rfl⟩, rfl⟩
  obtain ⟨-, hheld, -⟩ := Reachable.loopOf_finds hreachable "T"
  obtain ⟨-, halone, hfound, hbelow⟩ := hheld ⟨"l"⟩ n hn hholds
  obtain ⟨x, k, hk, hup, honly⟩ := hfound 1 (by omega)
  obtain rfl : (⟨"i"⟩ : LoopId) = x := (honly ⟨"i"⟩ m hm).1 ⟨hlevels.2, _, hwalk, by simp⟩
  have hsound := hreachable.sound
  refine ⟨t, u, ht, hu, ⟨n, halone, hsound.id_eq hn⟩, ⟨k, hup, hsound.id_eq hk⟩, ?_, ?_⟩
  · rw [hbelow 3 (by omega), hlevels.1]
  · cases ht
    cases hu
    rfl

end Forest

end LoopNest
