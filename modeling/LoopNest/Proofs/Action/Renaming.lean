import LoopNest.Action.Candidate
import LoopNest.Action.Text
import LoopNest.Proofs.Forest.Equivariance
import LoopNest.Proofs.Forest.Reachable

/-!
LoopNest.Proofs.Action.Renaming — candidates and short forms of a relabelled
forest.

Candidates are lists of loops, so they are renamed as sections are, whatever
rule picks them (`Linked.candidates_relabel`).  A short form names a loop by
its level; the levels stay with the places, so the short form of a renamed
action in a relabelled forest is the old one (`Action.shortForm_rename`).

With the questions of `Equivariance` this says of an interchange that it can
be seen only through the names of the two loops
(`Reachable.interchange_seen_through_swap`).
-/

namespace LoopNest

/-! ## Short forms -/

/-- A parameter with its loop renamed, if it is one. -/
def Param.rename (π : Equiv.Perm LoopId) : Param → Param
  | .loop id => .loop (π id)
  | .factor value => .factor value

/-- An action with its loops renamed. -/
def Action.rename (π : Equiv.Perm LoopId) (a : Action) : Action :=
  { a with params := a.params.map (Param.rename π) }

/-- An exchange of names is undone by itself. -/
theorem Action.rename_rename {π : Equiv.Perm LoopId} (h : ∀ x, π (π x) = x) (a : Action) :
    (a.rename π).rename π = a := by
  have hparam : ∀ p : Param, (p.rename π).rename π = p := by
    intro p
    cases p <;> simp [Param.rename, h]
  simp [rename, Function.comp_def, hparam]

section Text

open Forest

variable {t : Forest} {π : Equiv.Perm LoopId}

theorem Param.text_rename (hπ : KeepsOutside π t) (p : Param) :
    (p.rename π).text (t.relabel π) = p.text t := by
  cases p with
  | factor value => rfl
  | loop id =>
    rw [Param.rename, Param.text, Param.text]
    cases hn : t.nodes[id]? with
    | none =>
      obtain ⟨hid, hgone⟩ := hπ.absent hn
      rw [hid, node_eq_error hgone, node_eq_error hn]
    | some n =>
      obtain ⟨own, hnew⟩ := node_relabel hπ.permutes hn
      rw [hnew, node_eq hn]
      rfl

theorem Action.paramTexts_rename (hπ : KeepsOutside π t) : ∀ params : List Param,
    paramTexts (t.relabel π) (params.map (Param.rename π)) = paramTexts t params
  | [] => rfl
  | p :: rest => by
      rw [List.map_cons, paramTexts, paramTexts, Param.text_rename hπ, paramTexts_rename hπ rest]

/-- The levels in a short form belong to the places. -/
theorem Action.shortForm_rename (hπ : KeepsOutside π t) (a : Action) :
    (a.rename π).shortForm (t.relabel π) = a.shortForm t := by
  rw [shortForm, shortForm]
  show (paramTexts (t.relabel π) (a.params.map (Param.rename π)) >>= _) = _
  rw [paramTexts_rename hπ]
  rfl

end Text

namespace Forest

variable {t : Forest} {π : Equiv.Perm LoopId}

/-! ## Candidates -/

theorem adjacentPairs_map (f : LoopId → LoopId) : ∀ ids : List LoopId,
    adjacentPairs (ids.map f) = (adjacentPairs ids).map (List.map f)
  | [] => rfl
  | [_] => rfl
  | _ :: inner :: rest => congrArg _ (adjacentPairs_map f (inner :: rest))

theorem Linked.partnersOf_relabel (h : t.Linked) (hπ : KeepsOutside π t) (first : LoopId) :
    ∀ ids : List LoopId, (t.relabel π).partnersOf (π first) (ids.map π)
      = (t.partnersOf first ids).map (List.map (List.map π))
  | [] => rfl
  | second :: rest => by
      have hrest := partnersOf_relabel h hπ first rest
      rw [List.map_cons, partnersOf, partnersOf, areSiblings_relabel hπ,
        h.isAncestor_relabel hπ, hrest]
      -- the pair joins the others or not, before the renaming as after it
      have hjoin : ∀ (related : Bool) (others : Except Error (List Candidate)),
          (do let others ← others.map (List.map (List.map π))
              return if related then [π first, π second] :: others else others)
            = (do let others ← others
                  return if related then [first, second] :: others else others).map
                (List.map (List.map π)) := by
        intro related others
        cases others <;> cases related <;> rfl
      cases t.areSiblings first second with
      | error e => rfl
      | ok siblings =>
        cases siblings with
        | true => exact hjoin true _
        | false =>
          cases t.isAncestor first second with
          | error e => rfl
          | ok related => exact hjoin related _

theorem Linked.interchangePairs_relabel (h : t.Linked) (hπ : KeepsOutside π t) :
    ∀ ids : List LoopId, (t.relabel π).interchangePairs (ids.map π)
      = (t.interchangePairs ids).map (List.map (List.map π))
  | [] => rfl
  | first :: rest => by
      have hrest := interchangePairs_relabel h hπ rest
      rw [List.map_cons, interchangePairs, interchangePairs, h.partnersOf_relabel hπ, hrest]
      cases t.partnersOf first rest with
      | error e => rfl
      | ok pairs =>
        cases t.interchangePairs rest with
        | error e => rfl
        | ok others =>
          show Except.ok _ = Except.ok _
          rw [List.map_append]

theorem innermost_relabel (hπ : KeepsOutside π t) : ∀ ids : List LoopId,
    (t.relabel π).innermost (ids.map π) = (t.innermost ids).map (List.map (List.map π))
  | [] => rfl
  | id :: rest => by
      have hrest := innermost_relabel hπ rest
      rw [List.map_cons, innermost, innermost, hrest]
      cases hn : t.nodes[id]? with
      | none =>
        obtain ⟨hid, hgone⟩ := hπ.absent hn
        rw [hid, node_eq_error hgone, node_eq_error hn]
        rfl
      | some n =>
        obtain ⟨own, hnew⟩ := node_relabel hπ.permutes hn
        rw [hnew, node_eq hn, ok_bind, ok_bind]
        have hleaf : (own.atPlace π n).isLeaf = n.isLeaf := by
          simp [Node.isLeaf, Node.atPlace, Node.relocated]
        have hwork : (own.atPlace π n).computations = n.computations := rfl
        cases t.innermost rest with
        | error e => rfl
        | ok others =>
          simp only [hleaf, hwork]
          show Except.ok _ = Except.ok _
          split <;> rfl

/-- Candidates picked from the sections of each root. -/
theorem Linked.picked_relabel (h : t.Linked) (hπ : KeepsOutside π t)
    (pick : List Section → List Candidate)
    (hpick : ∀ sections, pick (sections.map (List.map π)) = (pick sections).map (List.map π)) :
    (do let sections ← (t.relabel π).sections
        return sections.map fun _ sections => pick sections)
      = (do let sections ← t.sections
            return sections.map fun _ sections => pick sections).map
          (OrderedMap.rename π (List.map (List.map π))) := by
  rw [h.sections_relabel hπ.permutes]
  cases t.sections with
  | error e => rfl
  | ok sections =>
    show Except.ok _ = Except.ok _
    congr 1
    refine OrderedMap.ext ?_
    simp [OrderedMap.map, OrderedMap.rename, Function.comp_def, hpick]

/-- Candidates picked from the walk of each root. -/
theorem Linked.walked_relabel (h : t.Linked) (hπ : KeepsOutside π t)
    (pick : Forest → List LoopId → Except Error (List Candidate))
    (hpick : ∀ ids, pick (t.relabel π) (ids.map π) = (pick t ids).map (List.map (List.map π))) :
    perRoot (fun root => do pick (t.relabel π) (← (t.relabel π).preorder root)) .empty
        (t.relabel π).roots
      = (perRoot (fun root => do pick t (← t.preorder root)) .empty t.roots).map
          (OrderedMap.rename π (List.map (List.map π))) := by
  refine perRoot_rename t.roots .empty fun root _ => ?_
  rw [h.preorder_relabel hπ]
  cases t.preorder root with
  | error e => rfl
  | ok order => exact hpick order

/-- The candidates of every kind are renamed, root by root, and stay in their
order. -/
theorem Linked.candidates_relabel (h : t.Linked) (hπ : KeepsOutside π t) (kind : Kind) :
    kind.candidates (t.relabel π)
      = (kind.candidates t).map (OrderedMap.rename π (List.map (List.map π))) := by
  have hsingle : ∀ sections : List Section,
      (sections.map (List.map π)).flatten.map (fun id => [id])
        = (sections.flatten.map fun id => [id]).map (List.map π) := by
    intro sections
    simp [← List.map_flatten, Function.comp_def]
  have hpairs : ∀ sections : List Section,
      (sections.map (List.map π)).flatMap adjacentPairs
        = (sections.flatMap adjacentPairs).map (List.map π) := by
    intro sections
    rw [List.flatMap_map, List.map_flatMap]
    exact List.flatMap_congr fun s _ => adjacentPairs_map π s
  cases kind with
  | parallelization => exact h.picked_relabel hπ _ hsingle
  | reversal => exact h.picked_relabel hπ _ hsingle
  | skewing => exact h.picked_relabel hπ _ hpairs
  | tiling2d => exact h.picked_relabel hπ _ hpairs
  | interchange => exact h.walked_relabel hπ interchangePairs (h.interchangePairs_relabel hπ)
  | unrolling => exact h.walked_relabel hπ innermost (innermost_relabel hπ)

/-! ## Interchanges -/

/-- After an interchange of two loops every question has the answer that it
had before, asked with the two names exchanged, and with the two names
exchanged in the answer: walks, roots, levels, computations, ancestry,
sections, the candidates of every kind and the short form of every action,
absent loops included. -/
theorem Reachable.interchange_seen_through_swap (h : t.Reachable) {a b : LoopId}
    (ha : t.contains a = true) (hb : t.contains b = true) :
    ∃ u, t.interchange a b = .ok u ∧
      let s := Equiv.swap a b
      (∀ x, u.preorder x = (t.preorder (s x)).map (List.map s)) ∧
      (∀ x, u.rootOf x = (t.rootOf (s x)).map s) ∧
      (∀ x, u.levelOf x = t.levelOf (s x)) ∧
      (∀ x, u.subtreeComputations x = t.subtreeComputations (s x)) ∧
      (∀ x y, u.isAncestor x y = t.isAncestor (s x) (s y)) ∧
      (∀ x y, u.areSiblings x y = t.areSiblings (s x) (s y)) ∧
      u.sections = t.sections.map (OrderedMap.rename s (List.map (List.map s))) ∧
      (∀ kind : Kind, kind.candidates u
        = (kind.candidates t).map (OrderedMap.rename s (List.map (List.map s)))) ∧
      ∀ action : Action, action.shortForm u = (action.rename s).shortForm t := by
  have hsound := h.sound
  have hlinked := hsound.toLinked
  have hs : KeepsOutside (Equiv.swap a b) t := .swap ha hb
  refine ⟨t.relabel (Equiv.swap a b), ?_, ?_⟩
  · rw [hsound.interchange_eq, if_pos ha, if_pos hb]
  · intro s
    -- every loop is the image of the loop that it is exchanged with
    have htwice : ∀ x, s (s x) = x := Equiv.swap_apply_self a b
    refine ⟨fun x => ?_, fun x => ?_, fun x => ?_, fun x => ?_, fun x y => ?_, fun x y => ?_,
      hlinked.sections_relabel hs.permutes, hlinked.candidates_relabel hs, fun action => ?_⟩
    · rw [← hlinked.preorder_relabel hs (s x), htwice]
    · rw [← hlinked.rootOf_relabel hs (s x), htwice]
    · rw [← hlinked.levelOf_relabel hs (s x), htwice]
    · rw [← hlinked.subtreeComputations_relabel hs (s x), htwice]
    · rw [← hlinked.isAncestor_relabel hs (s x) (s y), htwice, htwice]
    · rw [← areSiblings_relabel hs (s x) (s y), htwice, htwice]
    · rw [← Action.shortForm_rename hs (action.rename s), Action.rename_rename htwice]

/-- The outer loop of `branching` exchanged with one of its two children. -/
theorem branching_seen_through_swap :
    ∃ t u, ofTable .branching = .ok t ∧ t.interchange ⟨"i"⟩ ⟨"k"⟩ = .ok u ∧
      u.preorder ⟨"k"⟩ = .ok [⟨"k"⟩, ⟨"j"⟩, ⟨"i"⟩, ⟨"l"⟩] ∧ u.isAncestor ⟨"k"⟩ ⟨"i"⟩ = .ok true ∧
      u.preorder ⟨"m"⟩ = .error (.unknownLoop ⟨"m"⟩) := by
  obtain ⟨u, hu, hpreorder, -, -, -, hancestor, -⟩ :=
    Reachable.interchange_seen_through_swap (.built (a := .branching) rfl)
      (a := ⟨"i"⟩) (b := ⟨"k"⟩) (by decide +kernel) (by decide +kernel)
  refine ⟨_, u, rfl, hu, ?_, ?_, ?_⟩
  · rw [hpreorder]
    decide +kernel
  · rw [hancestor]
    decide +kernel
  · rw [hpreorder]
    decide +kernel

end Forest

end LoopNest
