import LoopNest.Table.Basic

/-!
LoopNest.Proofs.Table.WellFormed — which annotations describe a forest.

Parents and children are both written down in an annotation.  That they
agree (`Table.Agrees`) can be seen entry by entry, and this is what the
cross check decides (`crossCheck_eq_ok_iff`).  It does not rule out loops
that are their own ancestors: an annotation describes a forest when parents
also lead to a loop without one (`Table.Depth`) and no computation is
written twice (`Table.WellFormed`).
-/

namespace LoopNest

namespace Table

/-- Following parents from a loop ends at a loop without one after so many
steps. -/
inductive Depth (a : Table) : LoopId → Nat → Prop where
  | root {id : LoopId} {entry : Entry} :
    a.loops.get? id = some entry → entry.parent = none → Depth a id 0
  | inner {id parent : LoopId} {entry : Entry} {depth : Nat} :
    a.loops.get? id = some entry → entry.parent = some parent → Depth a parent depth →
      Depth a id (depth + 1)

/-- Parents and children in a table agree. -/
structure Agrees (a : Table) : Prop where
  /-- a parent that is named is there and lists the loop -/
  parent_lists : ∀ {id parent : LoopId} {entry : Entry},
    a.loops.get? id = some entry → entry.parent = some parent →
      ∃ above, a.loops.get? parent = some above ∧ id ∈ above.children
  /-- a child that is listed is there and names the lister -/
  child_names : ∀ {id child : LoopId} {entry : Entry},
    a.loops.get? id = some entry → child ∈ entry.children →
      ∃ below, a.loops.get? child = some below ∧ below.parent = some id
  /-- no child is listed twice -/
  children_nodup : ∀ {id : LoopId} {entry : Entry},
    a.loops.get? id = some entry → entry.children.Nodup

/-- A table that describes a forest. -/
structure WellFormed (a : Table) : Prop extends Agrees a where
  /-- following parents always ends at a loop without one -/
  grounded : ∀ {id : LoopId} {entry : Entry},
    a.loops.get? id = some entry → ∃ depth, a.Depth id depth
  /-- no computation is written twice, in one entry or in two -/
  computations_nodup : (a.loops.entries.flatMap fun row => row.2.computations).Nodup

variable {a : Table}

theorem Depth.unique {id : LoopId} {d e : Nat} (hd : a.Depth id d) (he : a.Depth id e) :
    d = e := by
  induction hd generalizing e with
  | root hid hp =>
    cases he with
    | root => rfl
    | inner hid' hp' => simp_all
  | inner hid hp _ ih =>
    cases he with
    | root hid' hp' => simp_all
    | inner hid' hp' hq =>
      rw [hid] at hid'
      cases hid'
      rw [hp] at hp'
      cases hp'
      rw [ih hq]

/-- Only loops of the table have a depth. -/
theorem Depth.exists_entry {id : LoopId} {d : Nat} (h : a.Depth id d) :
    ∃ entry, a.loops.get? id = some entry := by
  cases h with
  | root hid _ => exact ⟨_, hid⟩
  | inner hid _ _ => exact ⟨_, hid⟩

/-! ## Roots -/

theorem mem_roots {id : LoopId} :
    id ∈ a.roots ↔ ∃ entry, a.loops.get? id = some entry ∧ entry.parent = none := by
  simp [roots, OrderedMap.get?_eq_some_iff]

theorem nodup_roots (a : Table) : a.roots.Nodup :=
  a.loops.nodup_keys.sublist (List.filter_sublist.map Prod.fst)

/-! ## The cross check -/

theorem checkParent_eq_ok_iff (id : LoopId) (parent? : Option LoopId) :
    a.checkParent id parent? = .ok () ↔ ∀ parent, parent? = some parent →
      ∃ above, a.loops.get? parent = some above ∧ id ∈ above.children := by
  cases parent? with
  | none => simp [checkParent]
  | some parent =>
    cases hp : a.loops.get? parent with
    | none => simp [checkParent, hp]
    | some above =>
      by_cases hid : id ∈ above.children <;> simp [checkParent, hp, hid]

theorem checkChildren_eq_ok_iff (id : LoopId) : ∀ (children seen : List LoopId),
    a.checkChildren id seen children = .ok () ↔
      (∀ c ∈ children, ∃ below, a.loops.get? c = some below ∧ below.parent = some id) ∧
        children.Nodup ∧ ∀ c ∈ children, c ∉ seen
  | [], seen => by simp [checkChildren]
  | child :: rest, seen => by
      cases hc : a.loops.get? child with
      | none => simp [checkChildren, hc]
      | some below =>
        by_cases hp : below.parent = some id
        · by_cases hs : child ∈ seen
          · simp [checkChildren, hc, hp, hs]
          · have hstep : a.checkChildren id seen (child :: rest)
                = a.checkChildren id (child :: seen) rest := by
              simp [checkChildren, hc, hp, hs]
            rw [hstep, checkChildren_eq_ok_iff id rest (child :: seen)]
            constructor
            · rintro ⟨hall, hnd, hseen⟩
              have hfresh : child ∉ rest := fun hmem =>
                hseen child hmem (List.mem_cons_self ..)
              refine ⟨?_, List.nodup_cons.2 ⟨hfresh, hnd⟩, ?_⟩
              · intro c hcm
                rcases List.mem_cons.1 hcm with rfl | hcm
                · exact ⟨below, hc, hp⟩
                · exact hall c hcm
              · intro c hcm
                rcases List.mem_cons.1 hcm with rfl | hcm
                · exact hs
                · exact fun hin => hseen c hcm (List.mem_cons_of_mem _ hin)
            · rintro ⟨hall, hnd, hseen⟩
              obtain ⟨hfresh, hnd⟩ := List.nodup_cons.1 hnd
              refine ⟨fun c hcm => hall c (List.mem_cons_of_mem _ hcm), hnd, ?_⟩
              intro c hcm hin
              rcases List.mem_cons.1 hin with rfl | hin
              · exact hfresh hcm
              · exact hseen c (List.mem_cons_of_mem _ hcm) hin
        · simp [checkChildren, hc, hp]

theorem crossCheck_eq_ok_iff_forall : ∀ (rows : List (LoopId × Entry)),
    a.crossCheck rows = .ok () ↔ ∀ row ∈ rows,
      a.checkParent row.1 row.2.parent = .ok () ∧
        a.checkChildren row.1 [] row.2.children = .ok ()
  | [] => by simp [crossCheck]
  | (id, entry) :: rest => by
      rw [crossCheck]
      simp only [bind_eq_ok, crossCheck_eq_ok_iff_forall rest, List.mem_cons, forall_eq_or_imp]
      constructor
      · rintro ⟨⟨⟩, hp, ⟨⟩, hc, hrest⟩
        exact ⟨⟨hp, hc⟩, hrest⟩
      · rintro ⟨⟨hp, hc⟩, hrest⟩
        exact ⟨(), hp, (), hc, hrest⟩

/-- The cross check passes exactly the tables whose parents and children
agree. -/
theorem crossCheck_eq_ok_iff (a : Table) :
    a.crossCheck a.loops.entries = .ok () ↔ a.Agrees := by
  rw [crossCheck_eq_ok_iff_forall]
  simp only [checkParent_eq_ok_iff, checkChildren_eq_ok_iff, Prod.forall,
    ← OrderedMap.get?_eq_some_iff]
  constructor
  · intro hall
    exact {
      parent_lists := fun hid hp => (hall _ _ hid).1 _ hp
      child_names := fun hid hc => (hall _ _ hid).2.1 _ hc
      children_nodup := fun hid => (hall _ _ hid).2.2.1 }
  · intro h id entry hid
    exact ⟨fun parent hp => h.parent_lists hid hp, fun c hc => h.child_names hid hc,
      h.children_nodup hid, by simp⟩

end Table

end LoopNest
