import LoopNest.Proofs.Forest.Acceptance
import LoopNest.Proofs.Forest.Interchange

/-!
LoopNest.Proofs.Forest.Reachable — the forests that occur.

A forest is made from a table and changes by interchanges only.  Every
forest that occurs so is sound (`Reachable.sound`), and a run of
interchanges, refused ones among them, is known from the permutation it
amounts to (`Reachable.interchangeAll_relabels`).
-/

namespace LoopNest

/-- Two loops around a computation, one inside the other. -/
def Table.twoDeep : Table where
  loops := .ofList [
    (⟨"i"⟩, { parent := none, lower := .constant 0, upper := .symbolic "N", children := [⟨"j"⟩] }),
    (⟨"j"⟩, { parent := some ⟨"i"⟩, lower := .constant 0, upper := .symbolic "M",
              computations := ["S"] })]

/-- A loop around a loop and a chain of two, with a computation at the end of
each branch. -/
def Table.branching : Table where
  loops := .ofList [
    (⟨"i"⟩, { parent := none, lower := .constant 0, upper := .symbolic "N",
              children := [⟨"j"⟩, ⟨"k"⟩] }),
    (⟨"j"⟩, { parent := some ⟨"i"⟩, lower := .constant 0, upper := .symbolic "M",
              computations := ["S"] }),
    (⟨"k"⟩, { parent := some ⟨"i"⟩, lower := .constant 0, upper := .symbolic "M",
              children := [⟨"l"⟩] }),
    (⟨"l"⟩, { parent := some ⟨"k"⟩, lower := .constant 0, upper := .constant 8,
              computations := ["T"] })]

namespace Forest

/-- The forests that occur: made from a table, then changed by
interchanges. -/
inductive Reachable : Forest → Prop where
  | built {a : Table} {t : Forest} : ofTable a = .ok t → Reachable t
  | interchanged {t u : Forest} {a b : LoopId} :
    Reachable t → t.interchange a b = .ok u → Reachable u

/-- The loops `i` and `k` of `branching` can be exchanged. -/
theorem exists_branching_exchanged :
    ∃ t u, ofTable .branching = .ok t ∧ t.interchange ⟨"i"⟩ ⟨"k"⟩ = .ok u :=
  ⟨_, _, rfl, rfl⟩

variable {t u : Forest}

theorem Sound.of_interchange (h : t.Sound) {a b : LoopId} (hu : t.interchange a b = .ok u) :
    u.Sound := by
  have hrun : t.interchangeAll [(a, b)] = u := by
    show t.afterInterchange (a, b) = u
    rw [afterInterchange, hu]
  rw [← hrun]
  exact h.interchangeAll [(a, b)]

theorem Reachable.sound (h : t.Reachable) : t.Sound := by
  induction h with
  | built hbuilt => exact (sound_of_ofTable hbuilt).1
  | interchanged _ hstep ih => exact ih.of_interchange hstep

/-- A call is refused exactly if it names a loop that is not there. -/
theorem Sound.exists_interchange_iff (h : t.Sound) (a b : LoopId) :
    (∃ u, t.interchange a b = .ok u) ↔ t.contains a = true ∧ t.contains b = true := by
  rw [h.interchange_eq]
  by_cases ha : t.contains a = true
  · by_cases hb : t.contains b = true
    · simp [ha, hb]
    · simp [ha, hb]
  · simp [ha]

/-- Calls and the same calls backwards leave the forest as it was. -/
theorem Sound.interchangeAll_reverse (h : t.Sound) (calls : List (LoopId × LoopId)) :
    t.interchangeAll (calls ++ calls.reverse) = t := by
  rw [h.interchangeAll_eq, permutationOf_append, permutationOf_reverse, inv_mul_cancel,
    relabel_one]

/-- A run of interchanges relabels the forest by the product `π` of the
transpositions of the calls that name loops of it; other calls are refused.
A loop keeps name and bounds and stands where `π` brings it, computations
stay in their order, and an owner is renamed like every other loop.  So runs
with the same permutation are the same run: a call may be written either way
round, and is undone by itself, as a run is by its reverse. -/
theorem Reachable.interchangeAll_relabels (h : t.Reachable) (calls : List (LoopId × LoopId)) :
    let π := t.permutationOf calls
    let u := t.interchangeAll calls
    (u.roots = t.roots.map π ∧
      (∀ (x : LoopId) (n : Node), u.nodes[x]? = some n ↔ ∃ own place,
        t.nodes[x]? = some own ∧ t.nodes[π.symm x]? = some place ∧
          n = { own with
            parent := place.parent.map π
            children := place.children.map π
            computations := place.computations
            level := place.level }) ∧
      u.computations = t.computations ∧
      (∀ c : String, u.owners[c]? = t.owners[c]?.map π) ∧
      u.ranks = t.ranks) ∧
    (∀ a b, (∃ v, u.interchange a b = .ok v) ↔ t.contains a = true ∧ t.contains b = true) ∧
    (∀ others, t.permutationOf others = π → t.interchangeAll others = u) ∧
    (∀ a b, t.interchangeAll [(b, a)] = t.interchangeAll [(a, b)] ∧
      t.interchangeAll [(a, b), (a, b)] = t) ∧
    t.interchangeAll (calls ++ calls.reverse) = t := by
  intro π u
  have hsound := h.sound
  have hu : u = t.relabel π := hsound.interchangeAll_eq calls
  refine ⟨⟨?_, ?_, ?_, ?_, ?_⟩, ?_, ?_, ?_, ?_⟩
  · rw [hu]
    rfl
  · intro x n
    rw [hu, nodes_relabel (t.permutes_permutationOf calls)]
    rfl
  · rw [hu]
    rfl
  · intro c
    rw [hu]
    exact Std.ExtTreeMap.getElem?_map
  · rw [hu]
    rfl
  · intro a b
    have hnow : u.Sound := hsound.interchangeAll calls
    rw [hnow.exists_interchange_iff, hu, contains_relabel, contains_relabel]
  · intro others hothers
    rw [hsound.interchangeAll_eq, hothers, hu]
  · intro a b
    constructor
    · rw [hsound.interchangeAll_eq, hsound.interchangeAll_eq, permutationOf, permutationOf,
        transpositionOf_swap]
      rfl
    · exact hsound.interchangeAll_reverse [(a, b)]
  · exact hsound.interchangeAll_reverse calls

theorem twoDeep_relabelled :
    ∃ t, ofTable .twoDeep = .ok t ∧
      (t.interchangeAll [(⟨"i"⟩, ⟨"j"⟩), (⟨"j"⟩, ⟨"k"⟩)]).roots = [⟨"j"⟩] :=
  ⟨_, rfl, (Reachable.interchangeAll_relabels (.built (a := .twoDeep) rfl)
    [(⟨"i"⟩, ⟨"j"⟩), (⟨"j"⟩, ⟨"k"⟩)]).1.1.trans (by decide +kernel)⟩

end Forest

end LoopNest
