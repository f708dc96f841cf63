import LoopNest.Proofs.Forest.Checking
import LoopNest.Proofs.Forest.Upward

/-!
LoopNest.Proofs.Forest.WellNested — the forests that pass the check.

Well nested is a forest in which one way from one root leads to each loop, in
which a loop that is not a root names the loop that lists it, and in which
levels count ancestors.  None of this can be seen from a loop and its children
alone, and no way is ever followed by the check.  It decides the property all
the same (`check_eq_ok_iff_wellNested`), for whatever links, levels and owners a
forest has been given.

* `Leads` — ways down, by the places of the children;
* `Linked.leads_unique` — in a linked forest there is one way to a loop;
* `WellNested.not_leads_self`, `WellNested.level_succ` — where there is one way
  to each loop, none runs in a circle, and levels go up by one.
-/

namespace LoopNest

namespace Forest

variable {t : Forest}

/-! ## Ways down -/

/-- A loop is reached from `start` by steps to a child, each given by the place
of the child among its siblings; the last step comes first. -/
inductive Leads (t : Forest) (start : LoopId) : List Nat → LoopId → Prop
  | here : t.Leads start [] start
  | down {places : List Nat} {place : Nat} {id child : LoopId} {n : Node}
      (hlead : t.Leads start places id) (hn : t.nodes[id]? = some n)
      (hchild : n.children[place]? = some child) : t.Leads start (place :: places) child

/-- Loops nested as they should be, told by the ways that lead to them. -/
structure WellNested (t : Forest) : Prop where
  roots_nodup : t.roots.Nodup
  roots_stored : ∀ {r : LoopId}, r ∈ t.roots → ∃ n, t.nodes[r]? = some n
  children_stored : ∀ {r id c : LoopId} {places : List Nat} {n : Node}, r ∈ t.roots →
    t.Leads r places id → t.nodes[id]? = some n → c ∈ n.children → ∃ m, t.nodes[c]? = some m
  /-- one root and one way from it -/
  reached_once : ∀ {id : LoopId} {n : Node}, t.nodes[id]? = some n →
    ∃! way : LoopId × List Nat, way.1 ∈ t.roots ∧ t.Leads way.1 way.2 id
  roots_parentless : ∀ {r : LoopId} {n : Node}, r ∈ t.roots → t.nodes[r]? = some n →
    n.parent = none
  /-- a loop that is not a root names the loop that lists it -/
  parent_eq_iff : ∀ {id p : LoopId} {n : Node}, t.nodes[id]? = some n → id ∉ t.roots →
    (n.parent = some p ↔ ∃ m, t.nodes[p]? = some m ∧ id ∈ m.children)
  /-- the level counts the ancestors -/
  level_eq : ∀ {id : LoopId} {n : Node}, t.nodes[id]? = some n →
    ∃ above : List LoopId, above.Nodup ∧ above.length = n.level ∧
      ∀ a, a ∈ above ↔ ∃ places, places ≠ [] ∧ t.Leads a places id
  owners_hold : ∀ {c : String} {id : LoopId}, t.owners[c]? = some id →
    ∃ n, t.nodes[id]? = some n ∧ c ∈ n.computations

namespace Leads

/-- One way after the other. -/
theorem trans {a b c : LoopId} {first second : List Nat} (hab : t.Leads a first b)
    (hbc : t.Leads b second c) : t.Leads a (second ++ first) c := by
  induction hbc with
  | here => exact hab
  | down _ hn hchild ih => exact .down ih hn hchild

/-- A way with a step in it ends at a listed loop. -/
theorem exists_lister {a id : LoopId} {places : List Nat} (h : t.Leads a places id)
    (hsteps : places ≠ []) :
    ∃ p m, t.nodes[p]? = some m ∧ id ∈ m.children ∧ ∃ before, t.Leads a before p := by
  cases h with
  | here => exact absurd rfl hsteps
  | down hlead hn hchild => exact ⟨_, _, hn, List.mem_of_getElem? hchild, _, hlead⟩

/-- If the end of a way is there, so is its start. -/
theorem exists_start {a id : LoopId} {places : List Nat} {n : Node} (h : t.Leads a places id)
    (hn : t.nodes[id]? = some n) : ∃ m, t.nodes[a]? = some m := by
  induction h generalizing n with
  | here => exact ⟨n, hn⟩
  | down _ hm _ ih => exact ih hm

theorem of_mem_children {a p c : LoopId} {m : Node} {places : List Nat}
    (h : t.Leads a places p) (hm : t.nodes[p]? = some m) (hc : c ∈ m.children) :
    ∃ place, t.Leads a (place :: places) c := by
  obtain ⟨place, hplace⟩ := List.mem_iff_getElem?.1 hc
  exact ⟨place, .down h hm hplace⟩

end Leads

/-! ## Ways and links -/

namespace Linked

/-- The loops that a loop leads to are those inside it. -/
theorem leads_iff_mem_inside (h : t.Linked) {a id : LoopId} {m n : Node}
    (hm : t.nodes[a]? = some m) (hn : t.nodes[id]? = some n) :
    (∃ places, t.Leads a places id) ↔ id ∈ t.inside a := by
  constructor
  · rintro ⟨places, hlead⟩
    clear hn
    induction hlead with
    | here => exact h.self_mem_inside hm
    | down _ hn hchild ih =>
      obtain ⟨k, hk, hp⟩ := h.below hn (List.mem_of_getElem? hchild)
      exact (h.mem_inside_iff hm hk).2 (Or.inr ⟨_, hp, ih⟩)
  · refine h.fromRoots (motive := fun id => id ∈ t.inside a → ∃ places, t.Leads a places id)
      ?_ ?_ hn
    · intro id n hn hp hinside
      rcases (h.mem_inside_iff hm hn).1 hinside with rfl | ⟨p, hp', -⟩
      · exact ⟨[], .here⟩
      · rw [hp] at hp'
        cases hp'
    · intro id n p k hn hp hk ih hinside
      rcases (h.mem_inside_iff hm hn).1 hinside with rfl | ⟨p', hp', hinside⟩
      · exact ⟨[], .here⟩
      · rw [hp] at hp'
        cases hp'
        obtain ⟨places, hlead⟩ := ih hinside
        obtain ⟨place, hlead⟩ := hlead.of_mem_children hk ((h.mem_children_iff hn hk).2 hp)
        exact ⟨_, hlead⟩

/-- Two ways from roots to one loop are the same way from the same root. -/
theorem leads_unique (h : t.Linked) {r q id : LoopId} {x y : List Nat} (hr : r ∈ t.roots)
    (hq : q ∈ t.roots) (hx : t.Leads r x id) (hy : t.Leads q y id) : r = q ∧ x = y := by
  -- a listed loop has a parent, a root has none
  have hunlisted : ∀ {r p : LoopId} {m : Node} {place : Nat}, r ∈ t.roots →
      t.nodes[p]? = some m → m.children[place]? = some r → False := by
    intro r p m place hr hm hplace
    obtain ⟨n, hn, hp⟩ := h.below hm (List.mem_of_getElem? hplace)
    rw [(h.mem_roots_iff hn).1 hr] at hp
    cases hp
  induction hx generalizing y with
  | here =>
    cases hy with
    | here => exact ⟨rfl, rfl⟩
    | down _ hm hplace => exact (hunlisted hr hm hplace).elim
  | @down _ _ _ _ n _ hn hchild ih =>
    cases hy with
    | here => exact (hunlisted hq hn hchild).elim
    | down hlead hm hplace =>
      obtain ⟨k, hk, hp⟩ := h.below hn (List.mem_of_getElem? hchild)
      obtain ⟨k', hk', hp'⟩ := h.below hm (List.mem_of_getElem? hplace)
      rw [hk] at hk'
      cases hk'
      rw [hp] at hp'
      cases hp'
      rw [hn] at hm
      cases hm
      obtain ⟨rfl, rfl⟩ := ih hlead
      obtain ⟨hlt, -⟩ := List.getElem?_eq_some_iff.1 hchild
      have hplaces := (List.getElem?_inj hlt (h.children_nodup hn)).1 (hchild.trans hplace.symm)
      exact ⟨rfl, by rw [hplaces]⟩

theorem wellNested (h : t.Linked) (howners : ∀ {c : String} {id : LoopId},
    t.owners[c]? = some id → ∃ n, t.nodes[id]? = some n ∧ c ∈ n.computations) :
    t.WellNested where
  roots_nodup := h.roots_nodup
  roots_stored hr := (h.exists_node_of_mem_roots hr).imp fun _ hn => hn.1
  children_stored _ _ hn hc := (h.below hn hc).imp fun _ hm => hm.1
  reached_once {id n} hn := by
    obtain ⟨r, hr, hid⟩ := List.mem_flatMap.1 (h.mem_listing.2 ⟨n, hn⟩)
    obtain ⟨k, hk, -⟩ := h.exists_node_of_mem_roots hr
    obtain ⟨places, hlead⟩ := (h.leads_iff_mem_inside hk hn).2 hid
    refine ⟨(r, places), ⟨hr, hlead⟩, ?_⟩
    rintro ⟨q, others⟩ ⟨hq, hlead'⟩
    obtain ⟨rfl, rfl⟩ := h.leads_unique hr hq hlead hlead'
    rfl
  roots_parentless hr hn := (h.mem_roots_iff hn).1 hr
  parent_eq_iff hn _ := by
    constructor
    · intro hp
      obtain ⟨m, hm, hc, -⟩ := h.above hn hp
      exact ⟨m, hm, hc⟩
    · rintro ⟨m, hm, hc⟩
      exact (h.mem_children_iff hn hm).1 hc
  level_eq {id n} hn := by
    obtain ⟨above, hnodup, hlength, habove⟩ := h.exists_ancestors hn
    refine ⟨above, hnodup, hlength, fun a => ?_⟩
    rw [habove]
    constructor
    · rintro ⟨m, hm, hne, hinside⟩
      obtain ⟨places, hlead⟩ := (h.leads_iff_mem_inside hm hn).2 hinside
      refine ⟨places, ?_, hlead⟩
      rintro rfl
      cases hlead
      exact hne rfl
    · rintro ⟨places, hsteps, hlead⟩
      obtain ⟨m, hm⟩ := hlead.exists_start hn
      obtain ⟨p, k, hk, hc, before, hlead'⟩ := hlead.exists_lister hsteps
      refine ⟨m, hm, (h.strictly_inside_iff hm hn).2 ⟨p, (h.mem_children_iff hn hk).1 hc, ?_⟩⟩
      exact (h.leads_iff_mem_inside hm hk).1 ⟨before, hlead'⟩
  owners_hold := howners

end Linked

namespace WellNested

theorem leads_unique (h : t.WellNested) {r q id : LoopId} {n : Node} {x y : List Nat}
    (hn : t.nodes[id]? = some n) (hr : r ∈ t.roots) (hx : t.Leads r x id) (hq : q ∈ t.roots)
    (hy : t.Leads q y id) : x = y :=
  congrArg Prod.snd ((h.reached_once hn).unique ⟨hr, hx⟩ ⟨hq, hy⟩ : (r, x) = (q, y))

/-- No loop lists a root: there would be a second way to it. -/
theorem root_unlisted (h : t.WellNested) {r p : LoopId} {m : Node} (hr : r ∈ t.roots)
    (hm : t.nodes[p]? = some m) : r ∉ m.children := by
  intro hc
  obtain ⟨n, hn⟩ := h.roots_stored hr
  obtain ⟨⟨q, places⟩, ⟨hq, hlead⟩, -⟩ := h.reached_once hm
  obtain ⟨place, hlead⟩ := hlead.of_mem_children hm hc
  cases h.leads_unique hn hr .here hq hlead

/-- No way leads back to its start: there would be a longer way to it. -/
theorem not_leads_self (h : t.WellNested) {id : LoopId} {n : Node} {places : List Nat}
    (hn : t.nodes[id]? = some n) (hlead : t.Leads id places id) : places = [] := by
  obtain ⟨⟨r, first⟩, ⟨hr, hfirst⟩, -⟩ := h.reached_once hn
  simpa using h.leads_unique hn hr (hfirst.trans hlead) hr hfirst

/-- A listed loop is there and names its lister. -/
theorem child (h : t.WellNested) {id c : LoopId} {n : Node} (hn : t.nodes[id]? = some n)
    (hc : c ∈ n.children) : ∃ m, t.nodes[c]? = some m ∧ m.parent = some id := by
  obtain ⟨⟨r, places⟩, ⟨hr, hlead⟩, -⟩ := h.reached_once hn
  obtain ⟨m, hm⟩ := h.children_stored hr hlead hn hc
  exact ⟨m, hm, (h.parent_eq_iff hm fun hroot => h.root_unlisted hroot hn hc).2 ⟨n, hn, hc⟩⟩

/-- A loop without a parent is a root. -/
theorem mem_roots (h : t.WellNested) {id : LoopId} :
    id ∈ t.roots ↔ ∃ n, t.nodes[id]? = some n ∧ n.parent = none := by
  constructor
  · intro hr
    obtain ⟨n, hn⟩ := h.roots_stored hr
    exact ⟨n, hn, h.roots_parentless hr hn⟩
  · rintro ⟨n, hn, hp⟩
    obtain ⟨⟨r, places⟩, ⟨hr, hlead⟩, -⟩ := h.reached_once hn
    by_cases hsteps : places = []
    · subst hsteps
      cases hlead
      exact hr
    · obtain ⟨p, m, hm, hc, -⟩ := hlead.exists_lister hsteps
      obtain ⟨n', hn', hp'⟩ := h.child hm hc
      rw [hn] at hn'
      cases hn'
      rw [hp] at hp'
      cases hp'

/-- A loop is reached from its parent and from what its parent is reached
from. -/
theorem exists_leads_iff (h : t.WellNested) {a id p : LoopId} {n m : Node}
    (hn : t.nodes[id]? = some n) (hp : n.parent = some p) (hm : t.nodes[p]? = some m)
    (hc : id ∈ m.children) :
    (∃ places, places ≠ [] ∧ t.Leads a places id) ↔
      a = p ∨ ∃ places, places ≠ [] ∧ t.Leads a places p := by
  constructor
  · rintro ⟨places, hsteps, hlead⟩
    obtain ⟨p', m', hm', hc', before, hlead⟩ := hlead.exists_lister hsteps
    obtain ⟨n', hn', hp'⟩ := h.child hm' hc'
    rw [hn] at hn'
    cases hn'
    rw [hp] at hp'
    cases hp'
    by_cases hbefore : before = []
    · subst hbefore
      cases hlead
      exact Or.inl rfl
    · exact Or.inr ⟨before, hbefore, hlead⟩
  · rintro (rfl | ⟨places, -, hlead⟩)
    · obtain ⟨place, hlead⟩ := Leads.here.of_mem_children hm hc
      exact ⟨_, by simp, hlead⟩
    · obtain ⟨place, hlead⟩ := hlead.of_mem_children hm hc
      exact ⟨_, by simp, hlead⟩

/-- A loop lies one level below the loop that lists it. -/
theorem level_succ (h : t.WellNested) {id p : LoopId} {n m : Node} (hn : t.nodes[id]? = some n)
    (hp : n.parent = some p) (hm : t.nodes[p]? = some m) (hc : id ∈ m.children) :
    n.level = m.level + 1 := by
  obtain ⟨above, hnodup, hlength, habove⟩ := h.level_eq hn
  obtain ⟨above', hnodup', hlength', habove'⟩ := h.level_eq hm
  have hfresh : p ∉ above' := by
    intro hmem
    obtain ⟨places, hsteps, hlead⟩ := (habove' p).1 hmem
    exact hsteps (h.not_leads_self hm hlead)
  have hperm : above.Perm (p :: above') := by
    refine (List.perm_ext_iff_of_nodup hnodup (List.nodup_cons.2 ⟨hfresh, hnodup'⟩)).2 fun a => ?_
    rw [List.mem_cons, habove, habove', h.exists_leads_iff hn hp hm hc]
  rw [← hlength, ← hlength', hperm.length_eq, List.length_cons]

theorem linked (h : t.WellNested)
    (hid : ∀ {id : LoopId} {n : Node}, t.nodes[id]? = some n → n.id = id) : t.Linked where
  id_eq := hid
  roots_nodup := h.roots_nodup
  mem_roots := h.mem_roots
  level_root {id n} hn hp := by
    obtain ⟨above, -, hlength, habove⟩ := h.level_eq hn
    rw [← hlength, List.length_eq_zero_iff, List.eq_nil_iff_forall_not_mem]
    intro a ha
    obtain ⟨places, hsteps, hlead⟩ := (habove a).1 ha
    obtain ⟨p, m, hm, hc, -⟩ := hlead.exists_lister hsteps
    exact h.root_unlisted (h.mem_roots.2 ⟨n, hn, hp⟩) hm hc
  above {id p n} hn hp := by
    have hinner : id ∉ t.roots := by
      intro hroot
      rw [h.roots_parentless hroot hn] at hp
      cases hp
    obtain ⟨m, hm, hc⟩ := (h.parent_eq_iff hn hinner).1 hp
    exact ⟨m, hm, hc, h.level_succ hn hp hm hc⟩
  below := h.child
  children_nodup {id n} hn := by
    obtain ⟨⟨r, places⟩, ⟨hr, hlead⟩, -⟩ := h.reached_once hn
    refine List.nodup_iff_getElem?_ne_getElem?.2 fun i j hij hj hsame => ?_
    have hsecond := List.getElem?_eq_getElem hj
    obtain ⟨m, hm, -⟩ := h.child hn (List.getElem_mem hj)
    -- the two places of the child would give two ways to it
    have hways := h.leads_unique hm hr (.down hlead hn (hsame.trans hsecond)) hr
      (.down hlead hn hsecond)
    rw [List.cons.injEq] at hways
    omega

end WellNested

/-- Ways tell the same as links do. -/
theorem wellNested_iff_linked
    (hid : ∀ {id : LoopId} {n : Node}, t.nodes[id]? = some n → n.id = id) :
    t.WellNested ↔ t.Linked ∧ ∀ {c : String} {id : LoopId}, t.owners[c]? = some id →
      ∃ n, t.nodes[id]? = some n ∧ c ∈ n.computations :=
  ⟨fun h => ⟨h.linked hid, h.owners_hold⟩, fun h => h.1.wellNested h.2⟩

/-- The check passes exactly the well nested forests, among all that store each
node under its own id.  Nothing else is asked of the forest: its links may run
in circles, its lists may name absent loops or a loop twice. -/
theorem check_eq_ok_iff_wellNested
    (hid : ∀ {id : LoopId} {n : Node}, t.nodes[id]? = some n → n.id = id) :
    t.check = .ok () ↔ t.WellNested :=
  (check_eq_ok_iff_linked hid).trans (wellNested_iff_linked hid).symm

/-- A root that lists its one child twice.  Every single edge is in order. -/
def doubled : Forest :=
  { empty with
    roots := [⟨"i"⟩]
    nodes := store [
      Entry.node ⟨"i"⟩
        { parent := none, lower := .constant 0, upper := .symbolic "N",
          children := [⟨"j"⟩, ⟨"j"⟩] } 0,
      Entry.node ⟨"j"⟩
        { parent := some ⟨"i"⟩, lower := .constant 0, upper := .symbolic "M",
          computations := ["S"] } 1] }

/-- The forest of `branching`, its loops `i` and `k` exchanged, is well nested;
`doubled` is not, having two ways to `j`. -/
theorem branching_wellNested :
    (∃ t u, ofTable .branching = .ok t ∧ t.interchange ⟨"i"⟩ ⟨"k"⟩ = .ok u ∧ u.WellNested) ∧
      doubled.check = .error (.invalidNode ⟨"j"⟩ .reachedTwice) ∧ ¬ doubled.WellNested := by
  have hrefused : doubled.check = .error (.invalidNode ⟨"j"⟩ .reachedTwice) := by
    decide +kernel
  have hid : ∀ {id : LoopId} {n : Node}, doubled.nodes[id]? = some n → n.id = id := by
    intro id n hn
    exact ((getElem?_store (by decide)).1 hn).2
  refine ⟨?_, hrefused, fun h => ?_⟩
  · obtain ⟨t, u, ht, hu⟩ := exists_branching_exchanged
    have hsound := (Reachable.interchanged (.built ht) hu).sound
    refine ⟨t, u, ht, hu, (check_eq_ok_iff_wellNested hsound.id_eq).1 ?_⟩
    cases ht
    cases hu
    decide +kernel
  · rw [(check_eq_ok_iff_wellNested hid).2 h] at hrefused
    cases hrefused

end Forest

end LoopNest
