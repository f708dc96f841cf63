import LoopNest.Action.Text
import LoopNest.Proofs.Forest.Relabelling

/-!
LoopNest.Proofs.Action.Writing — what it takes to write an action down.

Every written form of an action starts with its parameters as numbers, and the
only thing that can be missing is a loop: an action can be written exactly if
its loops are in the forest (`Action.Placed`, `Action.exists_paramTexts_iff`).
An action that passed the checks has the layout of its kind and something to
target (`Action.Made`).

* `Param.number`, `Action.numbers` — the numbers, known in advance;
* `Action.Placed.paramTexts_eq` — they are what is written.
-/

namespace LoopNest

/-! ## Checked actions -/

/-- A list of parameters that passes the comparison has the layout. -/
theorem Action.map_shape_of_checkShapes {kind : Kind} : ∀ {params : List Param}
    {shapes : List Shape} {index : Nat}, params.length = shapes.length →
    checkShapes kind index params shapes = .ok () → params.map Param.shape = shapes
  | [], [], _, _, _ => rfl
  | param :: params, shape :: shapes, index, hlength, h => by
      rw [checkShapes] at h
      by_cases hshape : param.shape = shape
      · rw [if_pos hshape] at h
        rw [List.map_cons, hshape,
          map_shape_of_checkShapes (Nat.succ.inj hlength) h]
      · rw [if_neg hshape] at h
        cases h

/-- An action that was made from parameters and targets, and so has passed the
checks of its kind. -/
def Action.Made (a : Action) : Prop :=
  ∃ kind params computations, Action.make kind params computations = .ok a

/-- A made action has the layout of its kind, and something to target. -/
theorem Action.Made.fits {a : Action} (h : a.Made) :
    a.params.map Param.shape = a.kind.shape ∧ a.computations ≠ [] := by
  obtain ⟨kind, params, computations, hmake⟩ := h
  rw [make] at hmake
  split at hmake
  · cases hmake
  · next hlength =>
    obtain ⟨_, hshapes, hmake⟩ := bind_eq_ok.1 hmake
    split at hmake
    · cases hmake
    · next hempty =>
      cases hmake
      have hlayout := map_shape_of_checkShapes (Decidable.of_not_not hlength) hshapes
      exact ⟨hlayout, by simpa using hempty⟩

/-! ## Parameters as numbers -/

/-- The level that a loop carries; an absent loop counts as a root. -/
def Forest.levelAt (t : Forest) (id : LoopId) : Nat := (t.nodes[id]?.map Node.level).getD 0

/-- The levels of loops that are all there. -/
theorem Forest.levels_eq {t : Forest} : ∀ {ids : List LoopId},
    (∀ id ∈ ids, t.contains id = true) → t.levels ids = .ok (ids.map t.levelAt)
  | [], _ => rfl
  | id :: rest, h => by
      obtain ⟨n, hn⟩ := contains_eq_true_iff.1 (h id (List.mem_cons_self ..))
      rw [levels, node_eq hn, levels_eq fun x hx => h x (List.mem_cons_of_mem _ hx),
        List.map_cons, levelAt, hn]
      rfl

/-- The number that is written for a parameter. -/
def Param.number (t : Forest) : Param → Int
  | .loop id => t.levelAt id
  | .factor value => value.toInt

namespace Action

variable {t : Forest} {a : Action}

/-- The parameters of an action, as they are written. -/
def numbers (t : Forest) (a : Action) : List String := a.params.map fun p => (p.number t).repr

/-- All loops of an action are in the forest. -/
def Placed (t : Forest) (a : Action) : Prop := ∀ loop ∈ a.loops, t.contains loop = true

theorem mem_loops {loop : LoopId} : loop ∈ a.loops ↔ .loop loop ∈ a.params := by
  rw [loops, List.mem_filterMap]
  constructor
  · rintro ⟨p, hp, hloop⟩
    cases p with
    | factor value => cases hloop
    | loop id =>
      cases hloop
      exact hp
  · exact fun hp => ⟨_, hp, rfl⟩

theorem paramTexts_eq : ∀ {params : List Param},
    (∀ loop, .loop loop ∈ params → t.contains loop = true) →
    paramTexts t params = .ok (params.map fun p => (p.number t).repr)
  | [], _ => rfl
  | p :: rest, h => by
      have hp : p.text t = .ok (p.number t).repr := by
        cases p with
        | factor value => rfl
        | loop id =>
          obtain ⟨n, hn⟩ := Forest.contains_eq_true_iff.1 (h id (List.mem_cons_self ..))
          rw [Param.text, Forest.node_eq hn, Param.number, Forest.levelAt, hn]
          rfl
      rw [paramTexts, hp, paramTexts_eq fun loop hloop => h loop (List.mem_cons_of_mem _ hloop)]
      rfl

/-- If the parameters can be written, all loops among them are there. -/
theorem contains_of_paramTexts {loop : LoopId} : ∀ {params : List Param} {texts : List String},
    paramTexts t params = .ok texts → .loop loop ∈ params → t.contains loop = true
  | [], _, _, hloop => by cases hloop
  | p :: rest, texts, h, hloop => by
      rw [paramTexts] at h
      obtain ⟨text, htext, h⟩ := bind_eq_ok.1 h
      obtain ⟨others, hothers, -⟩ := bind_eq_ok.1 h
      rcases List.mem_cons.1 hloop with rfl | hloop
      · obtain ⟨n, hn, -⟩ := bind_eq_ok.1 htext
        exact Forest.contains_eq_true_iff.2 ⟨n, Forest.node_eq_ok_iff.1 hn⟩
      · exact contains_of_paramTexts hothers hloop

theorem Placed.paramTexts_eq (h : a.Placed t) : paramTexts t a.params = .ok (a.numbers t) :=
  Action.paramTexts_eq fun loop hloop => h loop (mem_loops.2 hloop)

/-- The call for a computation, and all calls, of an action whose loops are
there. -/
theorem Placed.call_eq (h : a.Placed t) (c : String) :
    a.call t c = .ok (callLine a.kind (a.numbers t) c) := by
  rw [call, h.paramTexts_eq]
  rfl

theorem Placed.calls_eq_join (h : a.Placed t) :
    a.calls t = .ok (String.join (a.computations.map (callLine a.kind (a.numbers t)))) := by
  rw [calls, h.paramTexts_eq]
  rfl

/-- Parameters can be written exactly if all loops among them are there. -/
theorem exists_paramTexts_iff :
    (∃ texts, paramTexts t a.params = .ok texts) ↔ a.Placed t :=
  ⟨fun ⟨_, htexts⟩ _ hloop => contains_of_paramTexts htexts (mem_loops.1 hloop),
    fun h => ⟨_, h.paramTexts_eq⟩⟩

/-- Not all loops of some actions are there exactly if one of them names an
absent loop. -/
theorem not_placed_iff {actions : List Action} : (¬ ∀ action ∈ actions, action.Placed t) ↔
    ∃ action ∈ actions, ∃ loop ∈ action.loops, t.contains loop = false := by
  simp [Placed]

end Action

end LoopNest
